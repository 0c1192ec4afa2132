import Mathlib.Algebra.Order.Ring.Int
import Mathlib.Data.Nat.Log
import ProbeScript.Proofs.Number.Exact

/-!
# Proofs/Number/Rounded — integers that are rounded

Past fifty-three bits the values are spaced out: near an integer `n` they are the multiples of
`gap n`, a power of two.  The value nearest to an integer is found by rounding it to such a multiple
(`nearest_eq_rounded`).  So to add less than half the gap leaves a value where it was
(`rounded_add_eq_iff`), and the integers rounded to infinity are those from `2 ^ 1024 - 2 ^ 970` on
(`two_pow_le_rounded_iff`).
-/

namespace ProbeScript.Number

variable {a b g m n q r : Nat}

/-- The distance between neighbouring values near an integer, one where it is below one. -/
def gap (n : Nat) : Nat := 2 ^ (n.log2 - 52)

/-- The multiple of its gap nearest to an integer; a tie goes to the even multiple. -/
def rounded (n : Nat) : Nat := roundDiv n (gap n) * gap n

theorem gap_pos (n : Nat) : 0 < gap n := Nat.two_pow_pos _

theorem gap_of_lt (h : n < 2 ^ 53) : gap n = 1 := by
  have hlog : n.log2 < 53 := by
    rcases Nat.eq_zero_or_pos n with rfl | hpos
    · decide
    · exact (Nat.log2_lt hpos.ne').mpr h
  rw [gap, Nat.sub_eq_zero_of_le (by omega), Nat.pow_zero]

theorem log2_mono (h : m ≤ n) : m.log2 ≤ n.log2 := by
  rcases Nat.eq_zero_or_pos m with rfl | hpos
  · exact Nat.zero_le _
  · exact (Nat.le_log2 (by omega)).mpr ((Nat.log2_self_le hpos.ne').trans h)

/-- Gaps widen. -/
theorem gap_dvd_gap (h : m ≤ n) : gap m ∣ gap n :=
  Nat.pow_dvd_pow 2 (Nat.sub_le_sub_right (log2_mono h) 52)

/-! ## Quotients rounded to an integer -/

theorem roundDiv_cases (a b : Nat) :
    (roundDiv a b = a / b ∧ 2 * (a % b) ≤ b) ∨ (roundDiv a b = a / b + 1 ∧ b ≤ 2 * (a % b)) := by
  rw [roundDiv]
  split
  · exact .inl ⟨rfl, by omega⟩
  · split
    · exact .inr ⟨rfl, by omega⟩
    · rcases Nat.mod_two_eq_zero_or_one (a / b) with h | h
      · exact .inl ⟨by rw [h, Nat.add_zero], by omega⟩
      · exact .inr ⟨by rw [h], by omega⟩

theorem le_roundDiv (a b : Nat) : a / b ≤ roundDiv a b := by
  rcases roundDiv_cases a b with ⟨h, -⟩ | ⟨h, -⟩ <;> omega

/-- A quotient is rounded down when the remainder is less than half, and at half when it is even. -/
theorem roundDiv_eq_div_iff :
    roundDiv a b = a / b ↔ 2 * (a % b) < b ∨ 2 * (a % b) = b ∧ a / b % 2 = 0 := by
  rw [roundDiv]
  split
  · omega
  · split <;> omega

/-- A quotient is rounded to the integer it exceeds when it exceeds it by less than half, or by half
where that integer is even. -/
theorem roundDiv_mul_add_eq_iff (hb : 0 < b) :
    roundDiv (b * q + r) b = q ↔ 2 * r < b ∨ 2 * r = b ∧ q % 2 = 0 := by
  have hdiv : (b * q + r) / b = q + r / b := Nat.mul_add_div hb q r
  have hmod : (b * q + r) % b = r % b := Nat.mul_add_mod b q r
  rcases Nat.lt_or_ge r b with hlt | hge
  · rw [Nat.div_eq_of_lt hlt, Nat.add_zero] at hdiv
    have hiff := roundDiv_eq_div_iff (a := b * q + r) (b := b)
    rwa [hdiv, hmod, Nat.mod_eq_of_lt hlt] at hiff
  · have hone : 1 ≤ r / b := Nat.div_pos hge hb
    have hle := le_roundDiv (b * q + r) b
    omega

theorem roundDiv_lt (h : a < q * b) : roundDiv a b ≤ q := by
  have hq : a / b < q := Nat.div_lt_of_lt_mul (by rwa [Nat.mul_comm])
  rcases roundDiv_cases a b with ⟨h, -⟩ | ⟨h, -⟩ <;> omega

theorem rounded_of_gap_dvd (h : gap n ∣ n) : rounded n = n := by
  have hmod : n % gap n = 0 := Nat.mod_eq_zero_of_dvd h
  have hdiv : roundDiv n (gap n) = n / gap n :=
    roundDiv_eq_div_iff.mpr (.inl (by rw [hmod]; exact gap_pos n))
  rw [rounded, hdiv, Nat.div_mul_cancel h]

/-- **What has been rounded is a multiple of its own gap**, though the gap may be twice as wide as
before. -/
theorem gap_dvd_rounded (n : Nat) : gap (rounded n) ∣ rounded n := by
  have hbound : n < 2 ^ 53 * gap n := by
    rw [gap, ← Nat.pow_add]
    exact Nat.lt_log2_self.trans_le (Nat.pow_le_pow_right (by decide) (by omega))
  rcases (roundDiv_lt hbound).lt_or_eq with hlt | heq
  · refine dvd_trans ?_ (Nat.dvd_mul_left (gap n) (roundDiv n (gap n)))
    rcases Nat.eq_zero_or_pos (rounded n) with hzero | hpos
    · rw [hzero]
      exact one_dvd _
    · refine Nat.pow_dvd_pow 2 ?_
      have hlog : (rounded n).log2 < 53 + (n.log2 - 52) := by
        rw [Nat.log2_lt hpos.ne', Nat.pow_add]
        exact Nat.mul_lt_mul_of_pos_right hlt (gap_pos n)
      omega
  · have hrounded : rounded n = 2 ^ (53 + (n.log2 - 52)) := by rw [rounded, heq, gap, Nat.pow_add]
    rw [gap, hrounded, Nat.log2_two_pow]
    exact Nat.pow_dvd_pow 2 (by omega)

/-- Rounding does not pass a multiple of the gap. -/
theorem le_rounded_of_gap_dvd (h : gap n ∣ m) (hle : m ≤ n) : m ≤ rounded n := by
  obtain ⟨q, rfl⟩ := h
  have hq : q ≤ n / gap n := (Nat.le_div_iff_mul_le (gap_pos n)).mpr (by rwa [Nat.mul_comm])
  rw [rounded, Nat.mul_comm (gap n) q]
  exact Nat.mul_le_mul_right _ (hq.trans (le_roundDiv n _))

/-- The least integer of a binade is a multiple of the gap there. -/
theorem gap_dvd_two_pow_log2 (n : Nat) : gap n ∣ 2 ^ n.log2 :=
  Nat.pow_dvd_pow 2 (Nat.sub_le _ _)

theorem rounded_pos (hn : n ≠ 0) : 0 < rounded n :=
  (Nat.two_pow_pos _).trans_le
    (le_rounded_of_gap_dvd (gap_dvd_two_pow_log2 n) (Nat.log2_self_le hn))

/-- **Rounding does not pass a value**, from wherever it is done. -/
theorem le_rounded (h : gap m ∣ m) (hle : m ≤ n) : m ≤ rounded n := by
  rcases (log2_mono hle).eq_or_lt with heq | hlt
  · have hgap : gap m = gap n := by rw [gap, gap, heq]
    exact le_rounded_of_gap_dvd (hgap ▸ h) hle
  · have hn : n ≠ 0 := by
      rintro rfl
      exact absurd hlt (Nat.not_lt.mpr (Nat.zero_le _))
    calc m ≤ 2 ^ n.log2 := Nat.lt_log2_self.le.trans (Nat.pow_le_pow_right (by decide) hlt)
      _ ≤ rounded n := le_rounded_of_gap_dvd (gap_dvd_two_pow_log2 n) (Nat.log2_self_le hn)

/-- Rounding does not pass a value from below either. -/
theorem rounded_le (h : gap m ∣ m) (hle : n ≤ m) : rounded n ≤ m := by
  obtain ⟨q, hq⟩ := (gap_dvd_gap hle).trans h
  rcases hle.eq_or_lt with rfl | hlt
  · exact (rounded_of_gap_dvd h).le
  · have hround : roundDiv n (gap n) ≤ q := roundDiv_lt (by rwa [Nat.mul_comm, ← hq])
    rw [hq, rounded, Nat.mul_comm]
    exact Nat.mul_le_mul_left _ hround

/-! ## Adding to a value -/

/-- Whether adding `n` to a value `m` comes to no more than half the gap there, where half the gap
counts at even multiples only. -/
def Absorbs (m n : Nat) : Prop := 2 * n < gap m ∨ 2 * n = gap m ∧ m / gap m % 2 = 0

instance (m n : Nat) : Decidable (Absorbs m n) := inferInstanceAs (Decidable (_ ∨ _))

/-- Within a binade the sum is rounded as a quotient by the one gap. -/
theorem rounded_add_eq_iff_of_log2_eq (hm : gap m ∣ m) (hlog : m.log2 = (m + n).log2) :
    rounded (m + n) = m ↔ Absorbs m n := by
  have hgap : gap (m + n) = gap m := by rw [gap, gap, hlog]
  obtain ⟨q, hq⟩ := hm
  have hround : rounded (m + n) = m ↔ roundDiv (gap m * q + n) (gap m) = q :=
    calc rounded (m + n) = m ↔ gap m * roundDiv (gap m * q + n) (gap m) = gap m * q := by
          rw [rounded, hgap, ← hq, Nat.mul_comm]
      _ ↔ roundDiv (gap m * q + n) (gap m) = q := Nat.mul_right_inj (gap_pos m).ne'
  rw [Absorbs, hround, roundDiv_mul_add_eq_iff (gap_pos m),
    Nat.div_eq_of_eq_mul_right (gap_pos m) hq]

/-- **Adding to a value leaves it where it was just when it absorbs what is added.** -/
theorem rounded_add_eq_iff (hm : gap m ∣ m) (hn : 0 < n) :
    rounded (m + n) = m ↔ Absorbs m n := by
  rcases (log2_mono (Nat.le_add_right m n)).eq_or_lt with heq | hlt
  · exact rounded_add_eq_iff_of_log2_eq hm heq
  · -- The sum has reached the power of two that comes next, and that is a value above.
    have hsum : 2 ^ (m + n).log2 ≤ m + n := Nat.log2_self_le (by omega)
    have hnext : m < 2 ^ (m + n).log2 :=
      Nat.lt_log2_self.trans_le (Nat.pow_le_pow_right (by decide) hlt)
    have hround : 2 ^ (m + n).log2 ≤ rounded (m + n) :=
      le_rounded_of_gap_dvd (gap_dvd_two_pow_log2 _) hsum
    have hgap : gap m ∣ 2 ^ (m + n).log2 - m := by
      refine Nat.dvd_sub ?_ hm
      exact (gap_dvd_gap (Nat.le_add_right m n)).trans (gap_dvd_two_pow_log2 _)
    have hstep : gap m ≤ 2 ^ (m + n).log2 - m := Nat.le_of_dvd (by omega) hgap
    have hpos : 0 < gap m := gap_pos m
    rw [Absorbs]
    omega

/-- What rounds to more than a value rounds to the next one at least. -/
theorem add_gap_le_rounded (hm : gap m ∣ m) (h : m < rounded n) : m + gap m ≤ rounded n := by
  have hdvd : gap m ∣ rounded n - m :=
    Nat.dvd_sub ((gap_dvd_gap h.le).trans (gap_dvd_rounded n)) hm
  have hle : gap m ≤ rounded n - m := Nat.le_of_dvd (by omega) hdvd
  omega

/-! ## Infinity -/

/-- The greatest value below `2 ^ (k + 54)`: the odd multiple of the gap right below. -/
def greatestBelow (k : Nat) : Nat := 2 ^ (k + 1) * (2 ^ 53 - 1)

theorem gap_greatestBelow (k : Nat) : gap (greatestBelow k) = 2 ^ (k + 1) := by
  have hlog : (greatestBelow k).log2 = k + 53 := by
    have hpos : 0 < 2 ^ k := Nat.two_pow_pos k
    have hlow : 2 ^ (k + 53) = 2 ^ k * 2 ^ 53 := Nat.pow_add 2 k 53
    have hhigh : 2 ^ (k + 53 + 1) = 2 ^ k * 2 ^ 54 := Nat.pow_add 2 k 54
    have hdef : greatestBelow k = 2 ^ k * (2 ^ 54 - 2) := by
      rw [greatestBelow, Nat.pow_succ, Nat.mul_assoc]
      rfl
    exact (Nat.log2_eq_iff (by omega)).mpr ⟨by omega, by omega⟩
  rw [gap, hlog]
  congr 1

/-- **The integers that round to a power of two or beyond are those from half a gap below it on**,
the gap there being the one right below. -/
theorem two_pow_le_rounded_iff {k e : Nat} (he : k + 54 = e) :
    2 ^ e ≤ rounded n ↔ 2 ^ e - 2 ^ k ≤ n := by
  subst he
  have hgap : gap (greatestBelow k) = 2 ^ k * 2 := gap_greatestBelow k
  have hmul : greatestBelow k = gap (greatestBelow k) * (2 ^ 53 - 1) := by
    rw [gap_greatestBelow, greatestBelow]
  have hnext : 2 ^ (k + 54) = 2 ^ k * 2 ^ 54 := Nat.pow_add 2 k 54
  have hpos : 0 < 2 ^ k := Nat.two_pow_pos k
  have hvalue : gap (greatestBelow k) ∣ greatestBelow k := ⟨_, hmul⟩
  rcases Nat.lt_or_ge (greatestBelow k) n with hgt | hle
  · obtain ⟨d, hd, rfl⟩ : ∃ d, 0 < d ∧ n = greatestBelow k + d := ⟨n - greatestBelow k, by omega⟩
    have hround := le_rounded hvalue hgt.le
    have hodd : greatestBelow k / gap (greatestBelow k) % 2 = 1 := by
      rw [Nat.div_eq_of_eq_mul_right (gap_pos _) hmul]
      rfl
    have hstay := rounded_add_eq_iff hvalue hd
    rw [Absorbs, hodd] at hstay
    have hstep := fun h => add_gap_le_rounded hvalue (n := greatestBelow k + d) h
    omega
  · have hround := rounded_le hvalue hle
    omega

/-- The power of two beyond all values. -/
def limit : Nat := 1 <<< 1024

theorem limit_eq : limit = 2 ^ 1024 :=
  have hpow (e : Nat) : 1 <<< e = 2 ^ e := Nat.one_shiftLeft e
  hpow 1024

theorem limit_le_rounded_iff : limit ≤ rounded n ↔ limit - 2 ^ 970 ≤ n := by
  rw [limit_eq]
  exact two_pow_le_rounded_iff rfl

theorem two_pow_lt_limit {k : Nat} (h : k < 1024) : 2 ^ k < limit := by
  rw [limit_eq, Nat.pow_lt_pow_iff_right]
  · exact h
  · exact Nat.one_lt_two

/-! ## The nearest value -/

/-- Past fifty-three bits the unit of an integer is its gap. -/
theorem unitExponent_of_log2 {e : Nat} (h : a.log2 = 52 + e) : unitExponent a 1 = e := by
  have ha : a ≠ 0 := by
    rintro rfl
    rw [Nat.log2_zero] at h
    omega
  rw [unitExponent, binade_one ha, h]
  omega

/-- Units of an integral size make an integer. -/
theorem ofUnits_natCast (negative : Bool) (hm : m ≠ 0) (e : Nat) :
    ofUnits negative m e
      = if limit ≤ m * 2 ^ e then .infinity negative
        else ofInt (if negative then -(m * 2 ^ e : Nat) else (m * 2 ^ e : Nat)) := by
  have hexp : (-(e : Int)).toNat = 0 := Int.toNat_of_nonpos (by omega)
  rw [ofUnits, if_neg hm, Int.toNat_natCast, hexp, Nat.shiftLeft_zero, Nat.shiftLeft_eq m]
  dsimp only
  rw [Rat.mkRat_one]
  rfl

/-- The value nearest to an integer of more than fifty-three bits, in units of its gap. -/
theorem nearest_eq_ofUnits_of_log2 {n : Int} {e : Nat} (hn : n ≠ 0)
    (he : n.natAbs.log2 = 52 + e) :
    nearest (Rat.ofInt n) = ofUnits (decide (n < 0)) (roundDiv n.natAbs (2 ^ e)) e := by
  have hexp : (-(e : Int)).toNat = 0 := Int.toNat_of_nonpos (by omega)
  refine (if_neg hn).trans ?_
  change ofUnits (decide (n < 0)) (roundDiv (n.natAbs <<< (-unitExponent n.natAbs 1).toNat)
    (1 <<< (unitExponent n.natAbs 1).toNat)) (unitExponent n.natAbs 1) = _
  rw [unitExponent_of_log2 he, hexp, Int.toNat_natCast, Nat.shiftLeft_zero, Nat.one_shiftLeft]

/-- **The value nearest to an integer is the integer rounded**, or infinity from the limit on. -/
theorem nearest_eq_rounded (n : Int) :
    nearest (Rat.ofInt n)
      = if limit ≤ rounded n.natAbs then .infinity (decide (n < 0))
        else ofInt (n.sign * rounded n.natAbs) := by
  rcases Nat.lt_or_ge n.natAbs (2 ^ 53) with hlt | hge
  · have hround : rounded n.natAbs = n.natAbs :=
      rounded_of_gap_dvd (by rw [gap_of_lt hlt]; exact one_dvd _)
    have hfinite : ¬limit ≤ rounded n.natAbs := by
      rw [hround]
      exact Nat.not_le.mpr (hlt.trans (two_pow_lt_limit (by decide)))
    rw [nearest_ofInt hlt.le, if_neg hfinite, hround, Int.sign_mul_natAbs]
  · have hn : n ≠ 0 := by
      rintro rfl
      exact absurd hge (by decide)
    have hlog : 53 ≤ n.natAbs.log2 := (Nat.le_log2 (Int.natAbs_ne_zero.mpr hn)).mpr hge
    obtain ⟨e, he⟩ := Nat.exists_eq_add_of_le (Nat.le_of_succ_le hlog)
    have hround : rounded n.natAbs = roundDiv n.natAbs (2 ^ e) * 2 ^ e := by
      rw [rounded, gap, he, Nat.add_sub_cancel_left]
    have hunits : roundDiv n.natAbs (2 ^ e) ≠ 0 := fun h =>
      (rounded_pos (Int.natAbs_ne_zero.mpr hn)).ne' (by rw [hround, h, Nat.zero_mul])
    have hsign : (if decide (n < 0) then -(rounded n.natAbs : Int) else rounded n.natAbs)
        = n.sign * rounded n.natAbs := by
      simp only [decide_eq_true_iff]
      split
      case isTrue hneg => rw [Int.sign_eq_neg_one_of_neg hneg, Int.neg_one_mul]
      case isFalse hneg => rw [Int.sign_eq_one_of_pos (by omega), Int.one_mul]
    rw [nearest_eq_ofUnits_of_log2 hn he, ofUnits_natCast _ hunits, ← hround, hsign]

end ProbeScript.Number
