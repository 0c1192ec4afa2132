import Mathlib.Data.Int.ModEq
import ProbeScript.Dump.Line
import ProbeScript.Proofs.Number.Hexadecimal
import ProbeScript.Proofs.Workshop.Reached

/-!
# Proofs/Workshop/Wrapped — integer literals modulo the sixty-fourth power of two

A literal is reduced to a signed word when it is built (`toWord_eq_iff`), and the word is shown
without a sign.  Both keep the residue of the integer and nothing else, so the text shown is the one
numeral of the residue (`showsWord_wordText`), and texts tell integers apart up to congruence
(`wordText_toWord_inj`).
-/

namespace ProbeScript

variable {u v : Int} {text : String}

/-! ## Words -/

/-- **The word of an integer** is the one congruent to it in the range of signed words. -/
theorem toWord_eq_iff : toWord v = u ↔ -2 ^ 63 ≤ u ∧ u < 2 ^ 63 ∧ u ≡ v [ZMOD 2 ^ 64] := by
  rw [toWord, Int.bmod_eq_iff (by decide), Int.modEq_comm, Int.modEq_iff_dvd]
  omega

theorem toWord_modEq (v : Int) : toWord v ≡ v [ZMOD 2 ^ 64] := (toWord_eq_iff.mp rfl).2.2

theorem toWord_inj : toWord u = toWord v ↔ u ≡ v [ZMOD 2 ^ 64] := by
  refine ⟨fun h => ?_, fun h => ?_⟩
  · exact (toWord_modEq u).symm.trans (h ▸ toWord_modEq v)
  · obtain ⟨hlow, hhigh, hword⟩ := toWord_eq_iff.mp (rfl : toWord v = toWord v)
    exact toWord_eq_iff.mpr ⟨hlow, hhigh, hword.trans h.symm⟩

theorem toWord_eq_zero_iff : toWord v = 0 ↔ 2 ^ 64 ∣ v := by
  rw [toWord_eq_iff, Int.modEq_iff_dvd, Int.sub_zero]
  exact ⟨fun h => h.2.2, fun h => ⟨by decide, by decide, h⟩⟩

/-! ## Texts of words -/

/-- Whether a text shows an integer modulo the sixty-fourth power of two: as zero, or as the
hexadecimal digits of the residue with no zero in front. -/
def ShowsWord (text : String) (v : Int) : Prop :=
  (2 ^ 64 ∣ v → text = "0") ∧
  (¬2 ^ 64 ∣ v → ∃ digits : List Char, text = "0x" ++ String.ofList digits ∧
    1 ≤ digits.length ∧ digits.length ≤ 16 ∧ (∀ d ∈ digits, d ∈ Number.hexAlphabet) ∧
    digits.head? ≠ some '0' ∧ (Number.ofHex digits : Int) = v % 2 ^ 64)

/-- **The text of a word shows its integer.** -/
theorem showsWord_wordText (v : Int) : ShowsWord (wordText (toWord v)) v := by
  refine ⟨fun h => ?_, fun h => ?_⟩
  · rw [toWord_eq_zero_iff.mpr h]
    rfl
  · have hresidue : toWord v % 18446744073709551616 = v % 2 ^ 64 := toWord_modEq v
    have hpos : 0 < v % 2 ^ 64 := by omega
    have hlt : v % 2 ^ 64 < 2 ^ 64 := Int.emod_lt_of_pos v (by decide)
    have hnat : ((v % 2 ^ 64).toNat : Int) = v % 2 ^ 64 := Int.toNat_of_nonneg hpos.le
    refine ⟨Nat.toDigits 16 (v % 2 ^ 64).toNat, ?_, Nat.length_toDigits_pos, ?_,
      fun d hd => Number.toDigits_subset _ hd, Number.head?_toDigits_ne (by omega), ?_⟩
    · rw [wordText, if_neg (mt toWord_eq_zero_iff.mp h), hresidue, Number.hexNat]
    · rw [Nat.length_toDigits_le_iff (by decide) (by decide)]
      omega
    · rw [Number.ofHex_toDigits, hnat]

theorem ShowsWord.dvd_iff (h : ShowsWord text v) : 2 ^ 64 ∣ v ↔ text = "0" := by
  refine ⟨h.1, fun htext => ?_⟩
  by_contra hdvd
  obtain ⟨digits, hdigits, -⟩ := h.2 hdvd
  have hlist := congrArg String.toList (htext.symm.trans hdigits)
  rw [String.toList_append, String.toList_ofList] at hlist
  exact List.cons_ne_nil _ _ (List.cons.inj hlist).2.symm

/-- A text shows but one residue. -/
theorem ShowsWord.modEq (hu : ShowsWord text u) (hv : ShowsWord text v) : u ≡ v [ZMOD 2 ^ 64] := by
  by_cases hzero : text = "0"
  · exact (Int.modEq_zero_iff_dvd.mpr (hu.dvd_iff.mpr hzero)).trans
      (Int.modEq_zero_iff_dvd.mpr (hv.dvd_iff.mpr hzero)).symm
  · obtain ⟨digits, hdigits, -, -, -, -, hvalue⟩ := hu.2 (mt hu.dvd_iff.mp hzero)
    obtain ⟨digits', hdigits', -, -, -, -, hvalue'⟩ := hv.2 (mt hv.dvd_iff.mp hzero)
    obtain rfl : digits = digits' := String.ofList_injective
      ((String.append_right_inj "0x").mp (hdigits.symm.trans hdigits'))
    exact hvalue.symm.trans hvalue'

/-- **Integers with one text are congruent**, and the other way round. -/
theorem wordText_toWord_inj : wordText (toWord u) = wordText (toWord v) ↔ u ≡ v [ZMOD 2 ^ 64] :=
  ⟨fun h => (showsWord_wordText u).modEq (h ▸ showsWord_wordText v),
    fun h => congrArg wordText (toWord_inj.mpr h)⟩

/-! ## Literals -/

theorem Ledger.line_of_int {f : Forest} {n : NodeId} {i : Int} (ledger : Ledger)
    (h : f.shape n = .int i) :
    ledger.line f n = .ok (wordText i ++ " " ++ (ledger.shownNote n).block .int) := by
  rw [line, Forest.kind, h]
  rfl

namespace Workshop

variable {w built : Workshop} {n : NodeId} {x : Number}

theorem shape_of_construct_big (h : w.construct (.int (.big v)) = .ok (n, built)) :
    built.forest.shape n = .int (toWord v) := by
  have hmint : w.mint (.int (toWord v)) = (n, built) := Except.ok.inj h
  obtain rfl : w.forest.size = n := (w.fst_mint _).symm.trans (congrArg Prod.fst hmint)
  obtain rfl : (w.mint _).2 = built := congrArg Prod.snd hmint
  rw [forest_mint, Forest.shape_add, if_pos rfl]

/-- A number that is a safe integer is built as that integer. -/
theorem construct_of_isSafeInteger {i : Int} (w : Workshop) (h : x.IsSafeInteger)
    (hi : x.IsInteger i) : w.construct (.int (.number x)) = w.construct (.int (.big i)) := by
  obtain ⟨j, hj⟩ := Number.isSafeInteger_iff.mp h
  obtain rfl : j = i := (Number.safeInt?_eq_some_iff.mp hj).1.unique hi
  rw [construct, construct, Literal.value?, hj]
  rfl

/-- No other number is built. -/
theorem construct_of_not_isSafeInteger (w : Workshop) (h : ¬x.IsSafeInteger) :
    w.construct (.int (.number x)) = .error (.notWhole x) := by
  have hnone : x.safeInt? = none := by
    refine Option.eq_none_iff_forall_ne_some.mpr fun i hi => ?_
    exact h (Number.isSafeInteger_iff.mpr ⟨i, hi⟩)
  rw [construct, Literal.value?, hnone]
  rfl

/-- **Integer literals are exact modulo the sixty-fourth power of two.**  A node built of an integer
holds the one congruent to it among the signed words and shows its residue, so two nodes show one
text just when their integers are congruent.  A number is refused, and the workshop left as it is,
just when it is no safe integer; otherwise it is built as the integer it is. -/
theorem int_literals_wrapped :
    (∀ (w : Workshop) (v : Int), ∃ n built word text,
      w.construct (.int (.big v)) = .ok (n, built) ∧ built.forest.shape n = .int word ∧
      (∀ u : Int, u = word ↔ -2 ^ 63 ≤ u ∧ u < 2 ^ 63 ∧ u ≡ v [ZMOD 2 ^ 64]) ∧
      (built.forest.shape n).summary = .ok text ∧ ShowsWord text v ∧
      ∀ ledger : Ledger, ledger.line built.forest n
        = .ok (text ++ " " ++ (ledger.shownNote n).block .int)) ∧
    (∀ (w w' built built' : Workshop) (u v : Int) (m n : NodeId),
      w.construct (.int (.big u)) = .ok (m, built) →
      w'.construct (.int (.big v)) = .ok (n, built') →
        ((built.forest.shape m).summary = (built'.forest.shape n).summary
          ↔ u ≡ v [ZMOD 2 ^ 64])) ∧
    ∀ (w : Workshop) (x : Number),
      ((∃ fault, w.construct (.int (.number x)) = .error fault) ↔ ¬x.IsSafeInteger) ∧
      (¬x.IsSafeInteger → w.step (.construct (.int (.number x))) = (.error (.notWhole x), w)) ∧
      ∀ n : Int, x.IsInteger n → x.IsSafeInteger →
        w.construct (.int (.number x)) = w.construct (.int (.big n)) := by
  refine ⟨fun w v => ?_, fun w w' built built' u v m n hu hv => ?_, fun w x => ?_⟩
  · have hbuilt : w.construct (.int (.big v)) = .ok ((w.mint (.int (toWord v))).1,
      (w.mint (.int (toWord v))).2) := rfl
    have hshape := shape_of_construct_big hbuilt
    refine ⟨_, _, toWord v, wordText (toWord v), hbuilt, hshape, fun u => ?_, ?_,
      showsWord_wordText v, fun ledger => ledger.line_of_int hshape⟩
    · rw [← toWord_eq_iff, eq_comm]
    · rw [hshape]
      rfl
  · rw [shape_of_construct_big hu, shape_of_construct_big hv, ← wordText_toWord_inj]
    exact ⟨Except.ok.inj, congrArg Except.ok⟩
  · refine ⟨⟨?_, fun h => ⟨_, w.construct_of_not_isSafeInteger h⟩⟩, fun h => ?_,
      fun i hi h => w.construct_of_isSafeInteger h hi⟩
    · rintro ⟨fault, hfault⟩ ⟨i, hi, hrange⟩
      rw [w.construct_of_isSafeInteger ⟨i, hi, hrange⟩ hi] at hfault
      cases hfault
    · rw [step, w.construct_of_not_isSafeInteger h]
      rfl

/-- The greatest residue is shown for minus one, the negative zero is built as zero, and one and a
half is refused. -/
theorem int_literals_wrapped_at_ends :
    let w : Workshop := {}
    let least := w.mint (.int (toWord (-1)))
    let greatest := w.mint (.int (toWord (2 ^ 64 - 1)))
    let half : Number := .finite (mkRat 3 2)
    w.construct (.int (.big (-1))) = .ok least ∧
    w.construct (.int (.big (2 ^ 64 - 1))) = .ok greatest ∧
    (least.2.forest.shape least.1).summary = .ok "0xffffffffffffffff" ∧
    (greatest.2.forest.shape greatest.1).summary = .ok "0xffffffffffffffff" ∧
    w.construct (.int (.number .negZero)) = w.construct (.int (.big 0)) ∧
    ¬half.IsSafeInteger ∧
    w.step (.construct (.int (.number half))) = (.error (.notWhole half), w) := by
  intro w least greatest half
  obtain ⟨-, hsame, hnumber⟩ := int_literals_wrapped
  have htext : (least.2.forest.shape least.1).summary = .ok "0xffffffffffffffff" := rfl
  have hleast : w.construct (.int (.big (-1))) = .ok least := rfl
  have hgreatest : w.construct (.int (.big (2 ^ 64 - 1))) = .ok greatest := rfl
  have hcongr : (-1 : Int) ≡ 2 ^ 64 - 1 [ZMOD 2 ^ 64] := by decide
  have hzero : Number.negZero.IsInteger 0 := .inr ⟨rfl, rfl⟩
  have hhalf : ¬half.IsSafeInteger := by
    have hnone : half.safeInt? = none := by decide
    rw [Number.isSafeInteger_iff, hnone]
    rintro ⟨i, hi⟩
    cases hi
  refine ⟨hleast, hgreatest, htext, ?_, (hnumber w _).2.2 0 hzero ⟨0, hzero, by decide⟩, hhalf,
    (hnumber w half).2.1 hhalf⟩
  exact ((hsame w w _ _ _ _ _ _ hleast hgreatest).mpr hcongr).symm.trans htext

end Workshop

end ProbeScript
