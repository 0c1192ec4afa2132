import ProbeScript.Proofs.Frame.Tiled
import ProbeScript.Proofs.Number.Rounded

/-!
# Proofs/Frame/Lowered — how far a request lowers the stack

The offset of a stack only ever goes down (`pairwise_bases`), but it need not move: far below the
top the values are spaced out, and a size of less than half their distance is absorbed.  A request
gets a finite base strictly below the offset just when its size is not absorbed and the sum does not
round to infinity (`base_below_iff`).
-/

namespace ProbeScript

namespace Number

variable {m n : Nat}

/-- Whether a value is finite and strictly below another finite one. -/
def IsBelow (x y : Number) : Prop := ∃ p q : Rat, x = .finite p ∧ y = .finite q ∧ p < q

theorem ofInt_isBelow {i j : Int} : (ofInt i).IsBelow (ofInt j) ↔ i < j := by
  constructor
  · rintro ⟨p, q, hp, hq, hlt⟩
    cases hp
    cases hq
    exact Rat.intCast_lt_intCast.mp hlt
  · exact fun h => ⟨_, _, rfl, rfl, Rat.intCast_lt_intCast.mpr h⟩

theorem infinity_not_isBelow {negative : Bool} {x : Number} : ¬(infinity negative).IsBelow x :=
  fun ⟨_, _, h, _⟩ => nomatch h

theorem ofInt_ne_infinity {i : Int} {negative : Bool} : ofInt i ≠ infinity negative :=
  nofun

/-- Going down from an integer by an integer. -/
theorem neg_sub_ofInt (hn : 0 < n) :
    ofInt (-m) - ofInt n
      = if limit ≤ rounded (m + n) then .infinity true else ofInt (-rounded (m + n)) := by
  have hneg : -(m : Int) - n < 0 := by omega
  have habs : (-(m : Int) - n).natAbs = m + n := by omega
  calc ofInt (-m) - ofInt n = nearest (Rat.ofInt (-m - n)) :=
        congrArg nearest (Rat.intCast_sub (-m) n).symm
    _ = _ := by
        rw [nearest_eq_rounded, habs, Int.sign_eq_neg_one_of_neg hneg, Int.neg_one_mul,
          decide_eq_true hneg]

/-- **Where going down from a value leads**: to the value itself if it absorbs the integer, to minus
infinity if the sum rounds to it, and strictly below in all other cases. -/
theorem neg_sub_spec (hgap : gap m ∣ m) (hlt : m < limit) (hn : 0 < n) :
    (ofInt (-m) - ofInt n = ofInt (-m) ↔ Absorbs m n) ∧
    (ofInt (-m) - ofInt n = .infinity true ↔ limit - 2 ^ 970 ≤ m + n) ∧
    ((ofInt (-m) - ofInt n).IsBelow (ofInt (-m)) ↔ ¬Absorbs m n ∧ m + n < limit - 2 ^ 970) := by
  have hle : m ≤ rounded (m + n) := le_rounded hgap (Nat.le_add_right m n)
  rw [neg_sub_ofInt hn, ← rounded_add_eq_iff hgap hn, ← Nat.not_le, ← limit_le_rounded_iff]
  split
  case isTrue hlimit =>
    exact ⟨iff_of_false ofInt_ne_infinity.symm (by omega), iff_of_true rfl hlimit,
      iff_of_false infinity_not_isBelow fun h => h.2 hlimit⟩
  case isFalse hlimit =>
    have heq : ofInt (-rounded (m + n)) = ofInt (-m) ↔ rounded (m + n) = m :=
      ⟨fun h => by have := ofInt_injective h; omega, fun h => by rw [h]⟩
    refine ⟨heq, iff_of_false ofInt_ne_infinity hlimit, ofInt_isBelow.trans ?_⟩
    omega

/-- The values a stack can have for its offset: minus an integer that is a value, or minus
infinity. -/
inductive Attained : Number → Prop
  | value {m : Nat} (hgap : gap m ∣ m) (hlt : m < limit) : Attained (ofInt (-m))
  | bottom : Attained (.infinity true)

/-- What comes of a value by going down comes of it by rounding. -/
theorem Attained.sub {x : Number} (h : x.Attained) (hn : 0 < n) : (x - ofInt n).Attained := by
  cases h with
  | bottom => exact .bottom
  | value hgap hlt =>
    rw [neg_sub_ofInt hn]
    split
    case isTrue => exact .bottom
    case isFalse hlimit => exact .value (gap_dvd_rounded _) (Nat.not_le.mp hlimit)

/-- Going down from such a value by a positive integer. -/
theorem Attained.sub_cases {x : Number} (h : x.Attained) (hn : 0 < n) :
    x = .infinity true ∧ x - ofInt n = .infinity true ∨
      ∃ m : Nat, x = ofInt (-m) ∧ gap m ∣ m ∧ m < limit ∧
        (x - ofInt n = x ↔ Absorbs m n) ∧
        (x - ofInt n = .infinity true ↔ limit - 2 ^ 970 ≤ m + n) ∧
        ((x - ofInt n).IsBelow x ↔ ¬Absorbs m n ∧ m + n < limit - 2 ^ 970) := by
  cases h with
  | bottom => exact .inl ⟨rfl, rfl⟩
  | @value m hgap hlt => exact .inr ⟨m, rfl, hgap, hlt, neg_sub_spec hgap hlt hn⟩

/-- Whether a value is not above another one: the same, minus infinity, or strictly below. -/
def IsAtMost (x y : Number) : Prop := x = y ∨ x = .infinity true ∨ x.IsBelow y

theorem IsAtMost.trans {x y z : Number} (hxy : x.IsAtMost y) (hyz : y.IsAtMost z) :
    x.IsAtMost z := by
  rcases hxy with rfl | rfl | ⟨p, q, rfl, rfl, hpq⟩
  · exact hyz
  · exact .inr (.inl rfl)
  · rcases hyz with rfl | h | ⟨q', r, hq, rfl, hqr⟩
    · exact .inr (.inr ⟨p, q, rfl, rfl, hpq⟩)
    · cases h
    · cases hq
      have hpr : p < r := by grind
      exact .inr (.inr ⟨p, r, rfl, rfl, hpr⟩)

theorem Attained.sub_isAtMost {x : Number} (h : x.Attained) (hn : 0 < n) :
    (x - ofInt n).IsAtMost x := by
  rcases h.sub_cases hn with ⟨rfl, -⟩ | ⟨m, -, -, -, hself, hbottom, hbelow⟩
  · exact .inl rfl
  · by_cases habsorbs : Absorbs m n
    · exact .inl (hself.mpr habsorbs)
    · rcases Nat.lt_or_ge (m + n) (limit - 2 ^ 970) with hfinite | hinfinite
      · exact .inr (.inr (hbelow.mpr ⟨habsorbs, hfinite⟩))
      · exact .inr (.inl (hbottom.mpr hinfinite))

end Number

namespace Stack

variable {s : Stack} {size : Number} {sizes : List Number}

/-- A request keeps the offset among the values a stack can have, and does not raise it. -/
theorem attained_request (hs : s.offset.Attained) (size : Number) :
    (s.request size).2.offset.Attained ∧ (s.request size).2.offset.IsAtMost s.offset := by
  cases h : accepts size with
  | false =>
    rw [request_of_not_accepts h]
    exact ⟨hs, .inl rfl⟩
  | true =>
    rw [request_of_accepts h]
    obtain ⟨n, hn, rfl⟩ := accepts_iff.mp h
    obtain ⟨n, rfl⟩ := Int.eq_ofNat_of_zero_le hn.le
    exact ⟨hs.sub (Int.natCast_pos.mp hn), hs.sub_isAtMost (Int.natCast_pos.mp hn)⟩

theorem attained_requestAll (sizes : List Number) (hs : s.offset.Attained) :
    (requestAll sizes s).2.offset.Attained := by
  induction sizes generalizing s with
  | nil => exact hs
  | cons size sizes ih => exact ih (attained_request hs size).1

/-- The bases of the regions handed out, in order. -/
def bases (served : List (Number × Except Fault Number)) : List Number :=
  served.filterMap fun r => r.2.toOption

theorem bases_requestAll_cons (size : Number) (sizes : List Number) (s : Stack) :
    bases (requestAll (size :: sizes) s).1
      = (if accepts size then [(s.request size).2.offset] else [])
        ++ bases (requestAll sizes (s.request size).2).1 := by
  rw [requestAll_cons]
  cases h : accepts size with
  | true =>
    rw [request_of_accepts h]
    rfl
  | false =>
    rw [request_of_not_accepts h]
    rfl

/-- **No region lies above one handed out before it.** -/
theorem pairwise_bases (sizes : List Number) (hs : s.offset.Attained) :
    (∀ base ∈ bases (requestAll sizes s).1, base.IsAtMost s.offset) ∧
      (bases (requestAll sizes s).1).Pairwise fun base later => later.IsAtMost base := by
  induction sizes generalizing s with
  | nil => exact ⟨fun _ h => absurd h List.not_mem_nil, .nil⟩
  | cons size sizes ih =>
    obtain ⟨hattained, hlower⟩ := attained_request hs size
    obtain ⟨hall, hpairwise⟩ := ih hattained
    rw [bases_requestAll_cons]
    have hlater : ∀ base ∈ bases (requestAll sizes (s.request size).2).1, base.IsAtMost s.offset :=
      fun base hbase => (hall base hbase).trans hlower
    split
    · exact ⟨List.forall_mem_cons.mpr ⟨hlower, hlater⟩, .cons hall hpairwise⟩
    · exact ⟨hlater, hpairwise⟩

/-- **A request gets a base strictly below the offset just when its size is not absorbed there and
does not take it to minus infinity.**  Whatever sizes were asked for before, the offset is minus a
natural number that is a value, or minus infinity, where it stays; and no base lies above another
one handed out before it. -/
theorem base_below_iff (sizes : List Number) (h : accepts size = true) :
    let s := (requestAll sizes {}).2
    let base := s.offset - size
    s.request size = (.ok base, ⟨base⟩) ∧
    (s.offset = .infinity true ∧ base = .infinity true ∨
      ∃ m n : Nat, s.offset = .ofInt (-m) ∧ Number.gap m ∣ m ∧ m < Number.limit ∧
        size = .ofInt n ∧
        (base = s.offset ↔ Number.Absorbs m n) ∧
        (base = .infinity true ↔ Number.limit - 2 ^ 970 ≤ m + n) ∧
        (base.IsBelow s.offset ↔ ¬Number.Absorbs m n ∧ m + n < Number.limit - 2 ^ 970)) ∧
    ∀ more, (bases (requestAll (sizes ++ size :: more) {}).1).Pairwise
      fun base later => later.IsAtMost base := by
  intro s base
  have hstart : Number.Attained (.ofInt 0) := .value (m := 0) (Nat.dvd_zero _) (by decide)
  refine ⟨request_of_accepts h, ?_, fun more => (pairwise_bases _ hstart).2⟩
  obtain ⟨n, hn, rfl⟩ := accepts_iff.mp h
  obtain ⟨n, rfl⟩ := Int.eq_ofNat_of_zero_le hn.le
  have hattained : s.offset.Attained := attained_requestAll sizes hstart
  rcases hattained.sub_cases (Int.natCast_pos.mp hn) with hbottom | ⟨m, hoffset, hgap, hlt, hcases⟩
  · exact .inl hbottom
  · exact .inr ⟨m, n, hoffset, hgap, hlt, rfl, hcases⟩

/-- Past the integers that are exact a size of three goes down by four: it is not absorbed. -/
theorem base_below_iff_of_three :
    accepts 3 = true ∧
      (requestAll [9007199254740992] {}).2.request 3
        = (.ok (-9007199254740996), ⟨-9007199254740996⟩) ∧
      (-9007199254740996 : Number).IsBelow (requestAll [9007199254740992] {}).2.offset := by
  have haccepts : accepts 3 = true := by decide +kernel
  have hoffset : (requestAll [9007199254740992] {}).2.offset
      = .ofInt (-(9007199254740992 : Nat)) := by decide +kernel
  have hbase : (requestAll [9007199254740992] {}).2.offset - 3 = -9007199254740996 := by
    decide +kernel
  obtain ⟨hrequest, hcases, -⟩ := base_below_iff [9007199254740992] haccepts
  rw [hbase] at hrequest hcases
  refine ⟨haccepts, hrequest, ?_⟩
  rcases hcases with ⟨hbottom, -⟩ | ⟨m, n, hm, -, -, hn, -, -, hbelow⟩
  · exact absurd (hoffset.symm.trans hbottom) Number.ofInt_ne_infinity
  · have hm : m = 9007199254740992 := by
      have := Number.ofInt_injective (hoffset.symm.trans hm)
      omega
    have hn : n = 3 := by
      have : (3 : Nat) = (n : Int) := Number.ofInt_injective hn
      omega
    rw [hm, hn] at hbelow
    exact hbelow.mpr (by decide +kernel)

/-- Not every size that is accepted lowers the stack: a size of one is absorbed at minus the
fifty-third power of two, and two requests get the same base. -/
theorem size_absorbed :
    (requestAll [9007199254740992, 1] {}).1
        = [(9007199254740992, .ok (-9007199254740992)), (1, .ok (-9007199254740992))] ∧
      ¬ ∀ (sizes : List Number) (size : Number), accepts size = true →
          ∃ base, (requestAll sizes {}).2.request size = (.ok base, ⟨base⟩) ∧
            base.IsBelow (requestAll sizes {}).2.offset := by
  refine ⟨by decide +kernel, fun h => ?_⟩
  obtain ⟨base, hrequest, hbelow⟩ := h [9007199254740992] 1 (by decide +kernel)
  have hstays : (requestAll [9007199254740992] {}).2.request 1
      = (.ok (.ofInt (-9007199254740992)), ⟨.ofInt (-9007199254740992)⟩) := by decide +kernel
  have hoffset : (requestAll [9007199254740992] {}).2.offset = .ofInt (-9007199254740992) := by
    decide +kernel
  have hbase : .ok (.ofInt (-9007199254740992)) = (.ok base : Except Fault Number) :=
    congrArg Prod.fst (hstays.symm.trans hrequest)
  cases hbase
  rw [hoffset] at hbelow
  exact absurd (Number.ofInt_isBelow.mp hbelow) (Int.lt_irrefl _)

end Stack

end ProbeScript
