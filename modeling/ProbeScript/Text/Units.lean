/-!
# Text/Units — text from UTF-16 code units

A unit outside the surrogates is a character of its own and a high surrogate followed by a low one
is one character.  Any other surrogate stands for no character and is read as the replacement
character.
-/

namespace ProbeScript.Text

/-- What is read where the input holds no character. -/
def replacement : Char := Char.ofNat 0xfffd

/-- Whether a unit is the first half of a pair. -/
def isHighSurrogate (u : UInt16) : Bool := 0xd800 ≤ u && u < 0xdc00

/-- Whether a unit is the second half of a pair. -/
def isLowSurrogate (u : UInt16) : Bool := 0xdc00 ≤ u && u < 0xe000

/-- The character of a pair of surrogates. -/
def pairChar (high low : UInt16) : Char :=
  Char.ofNat (0x10000 + (high.toNat - 0xd800) * 0x400 + (low.toNat - 0xdc00))

/-- The text of a sequence of code units. -/
def ofUnits : List UInt16 → List Char
  | [] => []
  | [u] => [if isHighSurrogate u || isLowSurrogate u then replacement else Char.ofNat u.toNat]
  | u :: v :: rest =>
    if isHighSurrogate u && isLowSurrogate v then pairChar u v :: ofUnits rest
    else if isHighSurrogate u || isLowSurrogate u then replacement :: ofUnits (v :: rest)
    else Char.ofNat u.toNat :: ofUnits (v :: rest)

example : ofUnits [0xd83d, 0xde00, 0xd83d, 0x61] = ['😀', replacement, 'a'] := by decide +kernel

end ProbeScript.Text
