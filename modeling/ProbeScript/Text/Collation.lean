/-!
# Text/Collation — the dictionary order of printable ASCII text

Texts are ordered first with the case of letters ignored: spaces and punctuation, then digits, then
letters, a text before its continuations.  Two texts that differ in nothing but case are ordered by
the first letter whose case differs, the small one first.
-/

namespace ProbeScript.Text

/-- The printable ASCII characters in order, the capital letters left out. -/
def collationOrder : List Char :=
  " _-,;:!?.\x27\"()[]\x7b\x7d@*/\\&#%`^+<=>|~$0123456789abcdefghijklmnopqrstuvwxyz".toList

/-- The place of a character in the order when case is ignored.  Characters outside the order come
after it, by code point. -/
def weight (c : Char) : Nat := (collationOrder.idxOf? c.toLower).getD (128 + c.toNat)

/-- Comparison of weights. -/
def compareWeights (m n : Nat) : Ordering := compareOfLessAndEq m n

/-- Comparison of two letters that differ at most in case. -/
def compareCase (c d : Char) : Ordering :=
  if c.isUpper = d.isUpper then .eq else if d.isUpper then .lt else .gt

/-- Comparison of two texts in dictionary order. -/
def collate (s t : String) : Ordering :=
  (List.compareLex (fun c d => compareWeights (weight c) (weight d)) s.toList t.toList).then
    (List.compareLex compareCase s.toList t.toList)

example : collate "b" "a10" = .gt ∧ collate "a" "A" = .lt ∧ collate "Ab" "aB" = .gt := by
  decide +kernel

end ProbeScript.Text
