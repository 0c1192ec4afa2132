import Mathlib.Algebra.Order.Ring.Int
import Mathlib.Data.Nat.Log
import ProbeScript.Number.Rounding

/-!
# Proofs/Number/Exact — integers that need no rounding

An integer of at most fifty-three bits is a whole number of the units in which numbers of its size
are counted, so rounding leaves it as it is (`nearest_ofInt`), and so it does with the power of two
that comes next.  Differences of integers within these bounds are exact (`ofInt_sub_ofInt`).
-/

namespace ProbeScript.Number

variable {a : Nat} {n : Int}

/-! ## Integers among the values -/

/-- Whether a value is the given integer.  Zero is an integer with either sign. -/
def IsInteger (x : Number) (n : Int) : Prop := x = ofInt n ∨ x = negZero ∧ n = 0

/-- Whether a value is an integer that no other integer is rounded to. -/
def IsSafeInteger (x : Number) : Prop :=
  ∃ n : Int, x.IsInteger n ∧ -(2 ^ 53 - 1) ≤ n ∧ n ≤ 2 ^ 53 - 1

theorem toInt?_eq_some_iff {x : Number} : x.toInt? = some n ↔ x.IsInteger n := by
  constructor
  · intro h
    cases x with
    | finite q =>
      rw [toInt?] at h
      split at h
      case isTrue hden =>
        obtain rfl := Option.some.inj h
        exact .inl (congrArg finite (Rat.ext rfl hden))
      case isFalse => cases h
    | negZero => exact .inr ⟨rfl, (Option.some.inj h).symm⟩
    | nan | infinity => cases h
  · rintro (rfl | ⟨rfl, rfl⟩)
    · exact toInt?_ofInt n
    · rfl

theorem IsInteger.unique {x : Number} {m : Int} (hm : x.IsInteger m) (hn : x.IsInteger n) : m = n :=
  Option.some.inj ((toInt?_eq_some_iff.mpr hm).symm.trans (toInt?_eq_some_iff.mpr hn))

/-- There is one value for each integer other than zero. -/
theorem eq_ofInt_of_toInt? {x : Number} (h : x.toInt? = some n) (hn : n ≠ 0) : x = ofInt n :=
  (toInt?_eq_some_iff.mp h).resolve_right fun h => hn h.2

theorem safeInt?_eq_some_iff {x : Number} :
    x.safeInt? = some n ↔ x.IsInteger n ∧ n.natAbs ≤ maxSafe := by
  rw [safeInt?, Option.filter_eq_some_iff, decide_eq_true_iff, toInt?_eq_some_iff]

theorem isSafeInteger_iff {x : Number} : x.IsSafeInteger ↔ ∃ n, x.safeInt? = some n := by
  refine exists_congr fun n => ?_
  rw [safeInt?_eq_some_iff, maxSafe]
  exact and_congr_right fun _ => by omega

/-! ## Rounding an integer -/

/-- A quotient without remainder is not rounded. -/
theorem roundDiv_one (a : Nat) : roundDiv a 1 = a := by
  simp [roundDiv, Nat.mod_one]

theorem binade_one (ha : a ≠ 0) : binade a 1 = a.log2 := by
  have hlog : (1 : Nat).log2 = 0 := by decide
  have hle : ¬a <<< (-(a.log2 : Int)).toNat < 1 <<< (a.log2 : Int).toNat := by
    rw [Int.toNat_natCast, Int.toNat_of_nonpos (by omega), Nat.shiftLeft_zero, Nat.one_shiftLeft]
    exact Nat.not_lt.mpr (Nat.log2_self_le ha)
  simp only [binade, hlog, Int.ofNat_zero, Int.sub_zero, if_neg hle]

/-- The unit of an integer of at most fifty-three bits is one or a fraction of one. -/
theorem unitExponent_one (ha : a ≠ 0) (hlt : a < 2 ^ 53) :
    unitExponent a 1 = -((52 - a.log2 : Nat) : Int) := by
  have hlog : a.log2 < 53 := (Nat.log2_lt ha).mpr hlt
  rw [unitExponent, binade_one ha]
  omega

/-- Units that come to a whole number are that number. -/
theorem ofUnits_shiftLeft (negative : Bool) {k : Nat} (ha : a ≠ 0) (hlt : a <<< k < 1 <<< 1024) :
    ofUnits negative (a <<< k) (-(k : Int)) = ofInt (if negative then -a else a) := by
  have hunits : a <<< k ≠ 0 := by
    rw [Nat.shiftLeft_eq]
    exact Nat.mul_ne_zero ha (Nat.two_pow_pos k).ne'
  have hexp : (-(k : Int)).toNat = 0 := Int.toNat_of_nonpos (by omega)
  have hsign : (if negative then -((a <<< k : Nat) : Int) else (a <<< k : Nat))
      = (if negative then -(a : Int) else a) * (2 ^ k : Nat) := by
    rw [Nat.shiftLeft_eq]
    cases negative <;> simp
  have hratio := Rat.mkRat_mul_right (n := if negative then -(a : Int) else a) (d := 1)
    (Nat.two_pow_pos k).ne'
  rw [Nat.one_mul] at hratio
  rw [ofUnits, if_neg hunits, hexp, Nat.shiftLeft_zero, if_neg (Nat.not_le.mpr hlt), Int.neg_neg,
    Int.toNat_natCast]
  dsimp only
  rw [hsign, Nat.one_shiftLeft, hratio, Rat.mkRat_one]
  rfl

/-- So many units are far below infinity. -/
theorem units_lt (ha : a ≠ 0) (hlt : a < 2 ^ 53) : a <<< (52 - a.log2) < 1 <<< 1024 := by
  have hlog : a.log2 < 53 := (Nat.log2_lt ha).mpr hlt
  calc a <<< (52 - a.log2) < 2 ^ (a.log2 + 1) * 2 ^ (52 - a.log2) := by
        rw [Nat.shiftLeft_eq]
        exact Nat.mul_lt_mul_of_pos_right Nat.lt_log2_self (Nat.two_pow_pos _)
    _ = 1 <<< 53 := by
        rw [← Nat.pow_add, Nat.one_shiftLeft]
        congr 1
        omega
    _ < 1 <<< 1024 := by decide +kernel

/-- The value nearest to such an integer is found by counting its units, of which there is a whole
number. -/
theorem nearest_eq_ofUnits (hzero : n ≠ 0) (hlt : n.natAbs < 2 ^ 53) :
    nearest (Rat.ofInt n) = ofUnits (decide (n < 0)) (n.natAbs <<< (52 - n.natAbs.log2))
      (-((52 - n.natAbs.log2 : Nat) : Int)) := by
  have hexp : (-((52 - n.natAbs.log2 : Nat) : Int)).toNat = 0 := Int.toNat_of_nonpos (by omega)
  refine (if_neg hzero).trans ?_
  change ofUnits (decide (n < 0)) (roundDiv (n.natAbs <<< (-unitExponent n.natAbs 1).toNat)
    (1 <<< (unitExponent n.natAbs 1).toNat)) (unitExponent n.natAbs 1) = _
  rw [unitExponent_one (Int.natAbs_ne_zero.mpr hzero) hlt, hexp, Int.neg_neg, Int.toNat_natCast,
    Nat.shiftLeft_zero, roundDiv_one]

/-- **An integer of at most fifty-three bits is the value nearest to itself**, and so is the power
of two that comes next. -/
theorem nearest_ofInt (h : n.natAbs ≤ 2 ^ 53) : nearest (Rat.ofInt n) = ofInt n := by
  by_cases hzero : n = 0
  · subst hzero
    rfl
  rcases Nat.lt_or_eq_of_le h with hlt | hlast
  · have ha : n.natAbs ≠ 0 := Int.natAbs_ne_zero.mpr hzero
    have hsign : (if decide (n < 0) then -(n.natAbs : Int) else n.natAbs) = n := by
      simp only [decide_eq_true_iff]
      split <;> omega
    rw [nearest_eq_ofUnits hzero hlt, ofUnits_shiftLeft _ ha (units_lt ha hlt), hsign]
  · rcases (by omega : n = 9007199254740992 ∨ n = -9007199254740992) with rfl | rfl <;>
      decide +kernel

/-- **A difference of integers is exact** where it is within these bounds. -/
theorem ofInt_sub_ofInt {m n : Int} (h : (m - n).natAbs ≤ 2 ^ 53) :
    ofInt m - ofInt n = ofInt (m - n) := by
  rw [← nearest_ofInt h]
  refine congrArg nearest ?_
  exact (Rat.intCast_sub m n).symm

end ProbeScript.Number
