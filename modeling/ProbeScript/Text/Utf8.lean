import ProbeScript.Text.Units

/-!
# Text/Utf8 — reading bytes as UTF-8, faults included

Every sequence of bytes is read as some text: each longest part that begins a character and is then
cut short is read as one replacement character, and so is each byte that begins none.  A byte order
mark is a character like any other.
-/

namespace ProbeScript.Text

/-- A character that has begun: the bits read so far, how many bytes are missing, and the range of
the next one. -/
structure Partial where
  bits : Nat
  missing : Nat
  low : UInt8
  high : UInt8

/-- What a byte does at the beginning of a character: it is read as one, or it begins one.  The
ranges of the second byte keep out overlong forms, surrogates and what lies above the last
character. -/
def beginChar (b : UInt8) : List Char × Option Partial :=
  if b ≤ 0x7f then ([Char.ofNat b.toNat], none)
  else if b < 0xc2 then ([replacement], none)
  else if b ≤ 0xdf then ([], some ⟨b.toNat - 0xc0, 1, 0x80, 0xbf⟩)
  else if b ≤ 0xef then
    ([], some ⟨b.toNat - 0xe0, 2, if b = 0xe0 then 0xa0 else 0x80, if b = 0xed then 0x9f else 0xbf⟩)
  else if b ≤ 0xf4 then
    ([], some ⟨b.toNat - 0xf0, 3, if b = 0xf0 then 0x90 else 0x80, if b = 0xf4 then 0x8f else 0xbf⟩)
  else ([replacement], none)

/-- What a byte does after the given beginning: it goes on with the character, or cuts it short and
begins another. -/
def continueChar (p : Partial) (b : UInt8) : List Char × Option Partial :=
  if p.low ≤ b && b ≤ p.high then
    let bits := p.bits * 64 + b.toNat % 64
    if p.missing ≤ 1 then ([Char.ofNat bits], none)
    else ([], some ⟨bits, p.missing - 1, 0x80, 0xbf⟩)
  else
    let (read, begun) := beginChar b
    (replacement :: read, begun)

/-- The text read from bytes after the given beginning. -/
def readUtf8 : Option Partial → List UInt8 → List Char
  | none, [] => []
  | some _, [] => [replacement]
  | none, b :: rest => (beginChar b).1 ++ readUtf8 (beginChar b).2 rest
  | some p, b :: rest => (continueChar p b).1 ++ readUtf8 (continueChar p b).2 rest

/-- The text read from bytes. -/
def ofUtf8 (bytes : List UInt8) : List Char := readUtf8 none bytes

/-- Three bytes of a character of four are one fault; the byte after them is read anew. -/
example : ofUtf8 [0xf0, 0x9f, 0x98, 0x41] = [replacement, 'A'] := by decide +kernel

/-- A surrogate has no form of its own: each of its bytes is a fault. -/
example : ofUtf8 [0xed, 0xa0, 0x80] = [replacement, replacement, replacement] := by decide +kernel

end ProbeScript.Text
