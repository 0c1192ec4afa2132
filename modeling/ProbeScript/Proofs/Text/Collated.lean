import Mathlib.Data.List.Lex
import Mathlib.Data.Prod.Lex
import ProbeScript.Text.Collation

/-!
# Proofs/Text/Collated — the dictionary is a linear order of places

The place of a text in the dictionary is the list of the weights of its characters and, behind it,
the list of which of them are capitals.  Places are pairs of lists, so they come with the linear
order of pairs and lists: the first difference decides, nothing comes before something, and the
capitals are looked at only where the weights agree.  `collate` compares by it
(`collate_compares`), and a printable text can be read off its place (`place_injective`).
-/

namespace ProbeScript.Text

/-! ## Comparing pairs and lists -/

section Compares

variable {α β : Type} {o₁ o₂ : Ordering}

/-- Comparing two pairs by their first parts and then by their second ones. -/
theorem then_compares [Preorder α] [Preorder β] {a a' : α} {b b' : β} (h₁ : o₁.Compares a a')
    (h₂ : o₂.Compares b b') : (o₁.then o₂).Compares (toLex (a, b)) (toLex (a', b')) := by
  cases o₁ with
  | lt => exact Prod.Lex.toLex_lt_toLex.mpr (.inl h₁)
  | gt => exact Prod.Lex.toLex_lt_toLex.mpr (.inl h₁)
  | eq =>
    obtain rfl : a = a' := h₁
    cases o₂ with
    | lt => exact Prod.Lex.toLex_lt_toLex.mpr (.inr ⟨rfl, h₂⟩)
    | gt => exact Prod.Lex.toLex_lt_toLex.mpr (.inr ⟨rfl, h₂⟩)
    | eq => exact congrArg (fun x => toLex (a, x)) h₂

/-- Comparing two lists by their first elements and then by the others. -/
theorem then_compares_cons [LinearOrder α] {a b : α} {s t : List α} (h₁ : o₁.Compares a b)
    (h₂ : o₂.Compares s t) : (o₁.then o₂).Compares (a :: s) (b :: t) := by
  cases o₁ with
  | lt => exact List.cons_lt_cons_iff.mpr (.inl h₁)
  | gt => exact List.cons_lt_cons_iff.mpr (.inl h₁)
  | eq =>
    obtain rfl : a = b := h₁
    cases o₂ with
    | lt => exact List.cons_lt_cons_iff.mpr (.inr ⟨rfl, h₂⟩)
    | gt => exact List.cons_lt_cons_iff.mpr (.inr ⟨rfl, h₂⟩)
    | eq => exact congrArg (a :: ·) h₂

/-- Comparing two lists by what their elements are compared by. -/
theorem compareLex_compares [LinearOrder β] (g : α → β) {cmp : α → α → Ordering}
    (hcmp : ∀ a b, (cmp a b).Compares (g a) (g b)) :
    ∀ s t : List α, (List.compareLex cmp s t).Compares (s.map g) (t.map g)
  | [], [] => rfl
  | [], b :: t => List.nil_lt_cons (g b) (t.map g)
  | a :: s, [] => List.nil_lt_cons (g a) (s.map g)
  | a :: s, b :: t => by
    rw [List.compareLex_cons_cons]
    exact then_compares_cons (hcmp a b) (compareLex_compares g hcmp s t)

end Compares

/-! ## Places -/

/-- A place in the dictionary. -/
abbrev Place := List Nat ×ₗ List Bool

/-- The place of a text in the dictionary. -/
def place (s : String) : Place := toLex (s.toList.map weight, s.toList.map Char.isUpper)

theorem compareWeights_compares (m n : Nat) : (compareWeights m n).Compares m n :=
  (compare_iff m n).mp rfl

/-- Small letters come before capitals. -/
theorem compareCase_compares (c d : Char) : (compareCase c d).Compares c.isUpper d.isUpper := by
  unfold compareCase
  cases c.isUpper <;> cases d.isUpper <;> simp [Ordering.Compares]

/-- **Texts are compared by their places.** -/
theorem collate_compares (s t : String) : (collate s t).Compares (place s) (place t) :=
  then_compares
    (compareLex_compares weight (fun c d => compareWeights_compares (weight c) (weight d))
      s.toList t.toList)
    (compareLex_compares Char.isUpper compareCase_compares s.toList t.toList)

/-! ## Printable text -/

/-- Whether a character is a printable one of ASCII. -/
def IsPrintable (c : Char) : Prop := 0x20 ≤ c.toNat ∧ c.toNat ≤ 0x7e

instance (c : Char) : Decidable (IsPrintable c) := inferInstanceAs (Decidable (_ ∧ _))

/-- The character of a weight, small or capital. -/
def letter (w : Nat) (capital : Bool) : Char :=
  let c := collationOrder.getD w ' '
  if capital then c.toUpper else c

/-- A printable character is the letter of its weight and its case: the order has every printable
character once, but for the capitals. -/
theorem letter_weight {c : Char} (hc : IsPrintable c) : letter (weight c) c.isUpper = c := by
  have all : ∀ n < 0x7f, 0x20 ≤ n →
      letter (weight (.ofNat n)) (Char.ofNat n).isUpper = .ofNat n := by decide +kernel
  simpa using all c.toNat (Nat.lt_succ_of_le hc.2) hc.1

theorem zipWith_letter {l : List Char} (hl : ∀ c ∈ l, IsPrintable c) :
    List.zipWith letter (l.map weight) (l.map Char.isUpper) = l := by
  calc List.zipWith letter (l.map weight) (l.map Char.isUpper)
      = l.map fun c => letter (weight c) c.isUpper := by rw [List.zipWith_map, List.zipWith_self]
    _ = l.map id := List.map_congr_left fun c hc => letter_weight (hl c hc)
    _ = l := List.map_id l

/-- **No two printable texts have the same place.** -/
theorem place_injective {s t : String} (hs : ∀ c ∈ s.toList, IsPrintable c)
    (ht : ∀ c ∈ t.toList, IsPrintable c) (h : place s = place t) : s = t := by
  obtain ⟨hw, hu⟩ := Prod.mk.inj h
  refine String.ext ?_
  rw [← zipWith_letter hs, hw, hu, zipWith_letter ht]

end ProbeScript.Text
