/-!
# Text/Quoted — string literals in printable ASCII

A string literal is written between double quotes, byte by byte of its UTF-8 form: printable ASCII
stands for itself, line feed, carriage return and tab have short names, and every other byte is
written as two hexadecimal digits.
-/

namespace ProbeScript.Text

/-- The UTF-8 form of a text. -/
def utf8 (s : List Char) : List UInt8 := s.flatMap String.utf8EncodeChar

/-- Whether a byte is a printable ASCII character, the space included. -/
def isPrintable (b : UInt8) : Bool := 0x20 ≤ b && b ≤ 0x7e

/-- The two hexadecimal digits of a byte, in lower case. -/
def hexDigits (b : UInt8) : List Char :=
  [Nat.digitChar (b.toNat / 16), Nat.digitChar (b.toNat % 16)]

/-- How a byte is written inside a literal. -/
def escapeByte (b : UInt8) : List Char :=
  if isPrintable b then [Char.ofNat b.toNat]
  else if b = 0x0a then ['\\', 'n']
  else if b = 0x0d then ['\\', 'r']
  else if b = 0x09 then ['\\', 't']
  else '\\' :: 'x' :: hexDigits b

/-- The literal of a text. -/
def quote (s : List Char) : List Char := '"' :: ((utf8 s).flatMap escapeByte ++ ['"'])

/-- The literal of a string. -/
def quoted (s : String) : String := String.ofList (quote s.toList)

example : quote ['a', '"', '\n', 'é'] =
    ['"', 'a', '"', '\\', 'n', '\\', 'x', 'c', '3', '\\', 'x', 'a', '9', '"'] := by decide +kernel

end ProbeScript.Text
