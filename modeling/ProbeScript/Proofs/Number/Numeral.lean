import Mathlib.Data.List.Basic
import ProbeScript.Number.Text

/-!
# Proofs/Number/Numeral — the characters numbers are written with

However a number is written, in decimal or in hexadecimal, positionally or with an exponent, its
text has letters, digits, signs and points only.  So it has neither a line end nor a character that
separates the parts of a line.
-/

namespace ProbeScript.Number

/-- Whether a character is a letter, a digit, a sign or a point. -/
def isNumeral (c : Char) : Bool := c.isAlphanum || c == '-' || c == '+' || c == '.'

/-- Whether a text has letters, digits, signs and points only. -/
def IsNumeral (s : String) : Prop := ∀ c ∈ s.toList, isNumeral c = true

instance (s : String) : Decidable (IsNumeral s) :=
  decidable_of_iff (s.toList.all isNumeral = true) List.all_eq_true

variable {a b n : Nat} {cs : List Char} {s t : String}

theorem IsNumeral.notMem {c : Char} (h : IsNumeral s) (hc : isNumeral c = false) :
    c ∉ s.toList := fun hmem =>
  Bool.false_ne_true (hc.symm.trans (h c hmem))

theorem IsNumeral.append (hs : IsNumeral s) (ht : IsNumeral t) : IsNumeral (s ++ t) := by
  rw [IsNumeral, String.toList_append]
  exact List.forall_mem_append.mpr ⟨hs, ht⟩

theorem isNumeral_ofList : IsNumeral (String.ofList cs) ↔ ∀ c ∈ cs, isNumeral c = true := by
  rw [IsNumeral, String.toList_ofList]

/-! ## Digits -/

theorem isNumeral_digitChar (h : n < 16) : isNumeral n.digitChar = true := by
  have hall : ∀ d : Fin 16, isNumeral d.val.digitChar = true := by decide
  exact hall ⟨n, h⟩

/-- What every digit of a base is, the characters of a numeral are. -/
theorem forall_mem_toDigits {P : Char → Prop} (hb : 1 < b) (hdigit : ∀ d < b, P d.digitChar)
    (n : Nat) : ∀ c ∈ Nat.toDigits b n, P c := by
  induction n using Nat.strongRecOn with
  | ind n ih =>
    rw [Nat.toDigits_eq_if hb]
    split
    case isTrue hlt => exact List.forall_mem_singleton.mpr (hdigit n hlt)
    case isFalse hge =>
      have hmod : n % b < b := Nat.mod_lt _ (by omega)
      exact List.forall_mem_append.mpr ⟨ih (n / b) (Nat.div_lt_self (by omega) hb),
        List.forall_mem_singleton.mpr (hdigit _ hmod)⟩

/-- What every hexadecimal digit is, the characters behind a point are. -/
theorem forall_mem_hexPlaces {P : Char → Prop} (hdigit : ∀ d < 16, P d.digitChar) (places : Nat)
    (h : a < b) : ∀ c ∈ hexPlaces b places a, P c := by
  induction places generalizing a with
  | zero => exact fun _ h => absurd h List.not_mem_nil
  | succ places ih =>
    have hlt : 16 * a / b < 16 := Nat.div_lt_of_lt_mul (by omega)
    exact List.forall_mem_cons.mpr ⟨hdigit _ hlt, ih (Nat.mod_lt _ (Nat.zero_lt_of_lt h))⟩

/-- **Digits are numerals** in every base up to sixteen. -/
theorem isNumeral_toDigits (hb : 1 < b) (hle : b ≤ 16) (n : Nat) :
    ∀ c ∈ Nat.toDigits b n, isNumeral c = true :=
  forall_mem_toDigits hb (fun _ hd => isNumeral_digitChar (Nat.lt_of_lt_of_le hd hle)) n

theorem isNumeral_replicate (n : Nat) : ∀ c ∈ List.replicate n '0', isNumeral c = true := by
  intro c hc
  rw [List.eq_of_mem_replicate hc]
  decide

theorem isNumeral_hexNat (n : Nat) : IsNumeral (hexNat n) :=
  isNumeral_ofList.mpr (isNumeral_toDigits (by decide) (by decide) n)

theorem isNumeral_toString_nat (n : Nat) : IsNumeral (toString n) := by
  rw [Nat.toString_eq_ofList_toDigits]
  exact isNumeral_ofList.mpr (isNumeral_toDigits (by decide) (by decide) n)

theorem isNumeral_toString_int (n : Int) : IsNumeral (toString n) := by
  cases n with
  | ofNat n => exact isNumeral_toString_nat n
  | negSucc n => exact .append (by decide) (isNumeral_toString_nat (n + 1))

/-! ## Numbers -/

theorem isNumeral_decimal (d : Decimal) : IsNumeral d.text := by
  have hdigits (n : Nat) : ∀ c ∈ Nat.toDigits 10 n, isNumeral c = true :=
    isNumeral_toDigits (by decide) (by decide) n
  have htake (n k : Nat) : ∀ c ∈ (Nat.toDigits 10 n).take k, isNumeral c = true :=
    fun c hc => hdigits n c (List.mem_of_mem_take hc)
  have hdrop (n k : Nat) : ∀ c ∈ (Nat.toDigits 10 n).drop k, isNumeral c = true :=
    fun c hc => hdigits n c (List.mem_of_mem_drop hc)
  have hpoint : isNumeral '.' = true := by decide
  have hzero : isNumeral '0' = true := by decide
  simp only [Decimal.text]
  split
  · exact isNumeral_ofList.mpr (List.forall_mem_append.mpr ⟨hdigits _, isNumeral_replicate _⟩)
  split
  · exact isNumeral_ofList.mpr
      (List.forall_mem_append.mpr ⟨htake _ _, List.forall_mem_cons.mpr ⟨hpoint, hdrop _ _⟩⟩)
  split
  · refine isNumeral_ofList.mpr (List.forall_mem_append.mpr ⟨?_, hdigits _⟩)
    exact List.forall_mem_cons.mpr
      ⟨hzero, List.forall_mem_cons.mpr ⟨hpoint, isNumeral_replicate _⟩⟩
  · -- The exponent has a sign, and the fraction is left out where there is but one digit.
    have hsign (negative : Prop) [Decidable negative] :
        isNumeral (if negative then '-' else '+') = true := by split <;> decide
    have hfraction (single : Prop) [Decidable single] :
        ∀ c ∈ if single then [] else '.' :: (Nat.toDigits 10 d.digits).drop 1,
          isNumeral c = true := by
      split
      · exact fun _ h => absurd h List.not_mem_nil
      · exact List.forall_mem_cons.mpr ⟨hpoint, hdrop _ _⟩
    refine isNumeral_ofList.mpr (List.forall_mem_append.mpr
      ⟨List.forall_mem_append.mpr ⟨htake _ _, hfraction _⟩, ?_⟩)
    exact List.forall_mem_cons.mpr ⟨by decide, List.forall_mem_cons.mpr ⟨hsign _, hdigits _⟩⟩

theorem isNumeral_sign (negative : Prop) [Decidable negative] :
    IsNumeral (if negative then "-" else "") := by
  split <;> decide

/-- **The decimal text of a number is a numeral.** -/
theorem isNumeral_text (x : Number) : IsNumeral x.text := by
  cases x with
  | nan => decide
  | infinity negative => cases negative <;> decide
  | negZero => decide
  | finite q =>
    rw [text]
    split
    · exact isNumeral_toString_int q.num
    · exact (isNumeral_sign _).append (isNumeral_decimal _)

theorem isNumeral_hexFraction (h : a < b) : IsNumeral (hexFraction a b) := by
  rw [hexFraction]
  split
  · decide
  · exact .append (by decide)
      (isNumeral_ofList.mpr (forall_mem_hexPlaces (fun _ => isNumeral_digitChar) _ h))

/-- **The hexadecimal text of a number is a numeral**, whether or not the number is integral. -/
theorem isNumeral_hex (x : Number) : IsNumeral x.hex := by
  cases x with
  | finite q =>
    rw [hex]
    exact ((isNumeral_sign _).append (isNumeral_hexNat _)).append
      (isNumeral_hexFraction (Nat.mod_lt _ q.den_pos))
  | nan | infinity _ | negZero => exact isNumeral_text _

end ProbeScript.Number
