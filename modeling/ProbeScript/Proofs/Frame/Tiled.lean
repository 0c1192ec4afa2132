import Mathlib.Algebra.Order.BigOperators.Group.List
import Mathlib.Data.Set.Lattice
import ProbeScript.Frame.Stack
import ProbeScript.Proofs.Number.Exact

/-!
# Proofs/Frame/Tiled — regions that tile the stack

Every region of the stack begins where the one handed out before it ends, going downwards from the
top of the frame.  While the offsets are integers that need no rounding, the regions handed out for
sizes asked for lie one right below the other (`regionsBelow`), so no two of them meet and together
they leave no gap (`regions_tile_stack`).  A size that is refused leaves no trace
(`requestAll_filter`).
-/

namespace ProbeScript

/-- A region of the stack. -/
structure Region where
  base : Int
  size : Int

/-- The addresses from one on up to another, which is not among them. -/
def addressesFrom (low high : Int) : Set Int := {a | low ≤ a ∧ a < high}

/-- The addresses in a region. -/
def Region.addresses (r : Region) : Set Int := addressesFrom r.base (r.base + r.size)

/-- The request for a region, with its answer. -/
def Region.served (r : Region) : Number × Except Fault Number :=
  (.ofInt r.size, .ok (.ofInt r.base))

/-- Regions of given sizes, the first right below an address and each of the others right below the
one before. -/
def regionsBelow : Int → List Int → List Region
  | _, [] => []
  | top, size :: sizes => ⟨top - size, size⟩ :: regionsBelow (top - size) sizes

/-! ## Regions one right below the other -/

theorem regionsBelow_eq (top : Int) (sizes : List Int) :
    regionsBelow top sizes = sizes.mapIdx fun k size => ⟨top - (sizes.take (k + 1)).sum, size⟩ := by
  induction sizes generalizing top with
  | nil => rfl
  | cons size sizes ih =>
    rw [regionsBelow, ih, List.mapIdx_cons]
    simp [Int.sub_sub]

theorem base_getLast?_regionsBelow (top : Int) (sizes : List Int) :
    (((regionsBelow top sizes).getLast?).map Region.base).getD top = top - sizes.sum := by
  induction sizes generalizing top with
  | nil => simp [regionsBelow]
  | cons size sizes ih =>
    rw [regionsBelow, List.sum_cons, ← Int.sub_sub, ← ih]
    cases h : regionsBelow (top - size) sizes with
    | nil => simp
    | cons r rs => simp [List.getLast?_cons]

/-- **Regions one right below the other leave no gap.** -/
theorem iUnion_regionsBelow (top : Int) {sizes : List Int} (hpos : ∀ n ∈ sizes, 0 < n) :
    (⋃ r ∈ regionsBelow top sizes, r.addresses) = addressesFrom (top - sizes.sum) top := by
  induction sizes generalizing top with
  | nil =>
    ext a
    simp [regionsBelow, addressesFrom]
  | cons size sizes ih =>
    obtain ⟨hsize, hsizes⟩ := List.forall_mem_cons.mp hpos
    have hsum : 0 ≤ sizes.sum := List.sum_nonneg fun n hn => (hsizes n hn).le
    have hcons : (⋃ r ∈ regionsBelow top (size :: sizes), r.addresses)
        = addressesFrom (top - size) top ∪ addressesFrom (top - size - sizes.sum) (top - size) := by
      rw [← ih _ hsizes]
      simp [regionsBelow, Region.addresses, Set.iUnion_or, Set.iUnion_union_distrib]
    ext a
    rw [hcons, List.sum_cons]
    simp only [addressesFrom, Set.mem_union, Set.mem_ofPred_eq]
    omega

/-- **Regions one right below the other do not meet**: the later ones lie below. -/
theorem pairwise_regionsBelow (top : Int) {sizes : List Int} (hpos : ∀ n ∈ sizes, 0 < n) :
    (regionsBelow top sizes).Pairwise fun r t => ∀ a ∈ r.addresses, a ∉ t.addresses := by
  induction sizes generalizing top with
  | nil => exact .nil
  | cons size sizes ih =>
    obtain ⟨hsize, hsizes⟩ := List.forall_mem_cons.mp hpos
    refine .cons (fun r hr => ?_) (ih _ hsizes)
    have hbelow : r.addresses ⊆ addressesFrom (top - size - sizes.sum) (top - size) := by
      rw [← iUnion_regionsBelow _ hsizes]
      exact Set.subset_biUnion_of_mem (u := Region.addresses) hr
    exact fun a ha ha' => not_lt_of_ge ha.1 (hbelow ha').2

/-! ## Sizes that are accepted -/

namespace Stack

variable {s : Stack} {size : Number} {sizes : List Number}

/-- **The sizes that are accepted are the positive integers.** -/
theorem accepts_iff : accepts size = true ↔ ∃ n : Int, 0 < n ∧ size = .ofInt n := by
  rw [accepts, Option.any_eq_true]
  constructor
  · rintro ⟨n, hn, hpos⟩
    have hpos : 0 < n := of_decide_eq_true hpos
    exact ⟨n, hpos, Number.eq_ofInt_of_toInt? hn hpos.ne'⟩
  · rintro ⟨n, hpos, rfl⟩
    exact ⟨n, Number.toInt?_ofInt n, decide_eq_true hpos⟩

/-- The sizes among those asked for that are accepted. -/
def accepted (sizes : List Number) : List Int :=
  sizes.filterMap fun size => size.toInt?.filter (0 < ·)

theorem accepted_cons (size : Number) (sizes : List Number) :
    accepted (size :: sizes) = (size.toInt?.filter (0 < ·)).toList ++ accepted sizes := by
  simp only [accepted, List.filterMap_cons]
  cases size.toInt?.filter (0 < ·) <;> rfl

theorem accepted_pos : ∀ n ∈ accepted sizes, 0 < n := by
  intro n hn
  obtain ⟨size, -, hsize⟩ := List.mem_filterMap.mp hn
  exact of_decide_eq_true (Option.filter_eq_some_iff.mp hsize).2

theorem filter_accepts (sizes : List Number) :
    sizes.filter accepts = (accepted sizes).map Number.ofInt := by
  induction sizes with
  | nil => rfl
  | cons size sizes ih =>
    rw [List.filter_cons, ih, accepted_cons]
    split
    · rename_i h
      obtain ⟨n, hpos, rfl⟩ := accepts_iff.mp h
      rw [Number.toInt?_ofInt, Option.filter_some, if_pos (decide_eq_true hpos)]
      rfl
    · rename_i h
      have hnone : size.toInt?.filter (0 < ·) = none :=
        Option.filter_eq_none_iff.mpr fun n hn hpos => h (by rwa [accepts, hn])
      rw [hnone]
      rfl

/-! ## Requests one after the other -/

/-- Makes one request: the answer is the offset of the region handed out.  A fault leaves the stack
as it was. -/
def request (s : Stack) (size : Number) : Except Fault Number × Stack :=
  match s.acquire size with
  | .ok s => (.ok s.offset, s)
  | .error fault => (.error fault, s)

/-- Makes requests in order; each size is listed with its answer. -/
def requestAll : List Number → Stack → List (Number × Except Fault Number) × Stack
  | [], s => ([], s)
  | size :: rest, s =>
    let (answer, s) := s.request size
    let (served, s) := requestAll rest s
    ((size, answer) :: served, s)

theorem requestAll_cons (size : Number) (rest : List Number) (s : Stack) :
    requestAll (size :: rest) s
      = ((size, (s.request size).1) :: (requestAll rest (s.request size).2).1,
        (requestAll rest (s.request size).2).2) := rfl

theorem request_of_accepts (h : accepts size = true) :
    s.request size = (.ok (s.offset - size), ⟨s.offset - size⟩) := by
  rw [request, acquire, if_pos h]

theorem request_of_not_accepts (h : accepts size = false) :
    s.request size = (.error (.badStackSize size), s) := by
  rw [request, acquire, if_neg (by simp [h])]

theorem map_fst_requestAll (sizes : List Number) (s : Stack) :
    (requestAll sizes s).1.map Prod.fst = sizes := by
  induction sizes generalizing s with
  | nil => rfl
  | cons size sizes ih => exact congrArg (size :: ·) (ih _)

/-- **A size that is refused leaves no trace**: the others are answered as they are without it. -/
theorem requestAll_filter (sizes : List Number) (s : Stack) :
    requestAll (sizes.filter accepts) s
      = ((requestAll sizes s).1.filter fun served => accepts served.1, (requestAll sizes s).2) := by
  induction sizes generalizing s with
  | nil => rfl
  | cons size sizes ih =>
    cases h : accepts size with
    | true => simp only [List.filter_cons, h, if_true, requestAll_cons, ih]
    | false =>
      simp only [List.filter_cons, h, Bool.false_eq_true, if_false, requestAll_cons,
        request_of_not_accepts h, ih]

theorem refused_of_mem (sizes : List Number) (s : Stack) :
    ∀ served ∈ (requestAll sizes s).1, accepts served.1 = false →
      served.2 = .error (.badStackSize served.1) := by
  induction sizes generalizing s with
  | nil => exact fun _ hserved => absurd hserved List.not_mem_nil
  | cons size sizes ih =>
    rw [requestAll_cons]
    refine List.forall_mem_cons.mpr ⟨fun h => ?_, ih _⟩
    rw [request_of_not_accepts h]

/-- **Within the bounds of exact integers the regions handed out lie one right below the other.** -/
theorem requestAll_ofInt :
    ∀ {sizes : List Int} {top : Int}, (∀ n ∈ sizes, 0 < n) → top ≤ 0 → sizes.sum - top ≤ 2 ^ 53 →
      requestAll (sizes.map Number.ofInt) ⟨.ofInt top⟩
        = ((regionsBelow top sizes).map Region.served, ⟨.ofInt (top - sizes.sum)⟩)
  | [], top, _, _, _ => by simp [requestAll, regionsBelow]
  | n :: sizes, top, hpos, htop, hsum => by
    obtain ⟨hn, hsizes⟩ := List.forall_mem_cons.mp hpos
    have hrest : 0 ≤ sizes.sum := List.sum_nonneg fun m hm => (hsizes m hm).le
    rw [List.sum_cons] at hsum
    have hexact : Number.ofInt top - Number.ofInt n = .ofInt (top - n) :=
      Number.ofInt_sub_ofInt (by omega)
    rw [List.map_cons, requestAll_cons, request_of_accepts (accepts_iff.mpr ⟨n, hn, rfl⟩), hexact,
      requestAll_ofInt hsizes (by omega) (by omega), List.sum_cons, ← Int.sub_sub]
    rfl

/-- **The regions handed out tile the stack.**  While the sizes accepted so far come to no more than
the integers that are exact, each region begins at minus the sum of the sizes up to its own.  The
offset of the stack is the base of the last region, and the regions fill what lies between it and
the top of the frame, without gap and without meeting.  A size that is no positive integer is
refused, and everything is as if it had not been asked for. -/
theorem regions_tile_stack (sizes : List Number) (hsum : (accepted sizes).sum ≤ 2 ^ 53) :
    let regions := (accepted sizes).mapIdx fun k size =>
      Region.mk (-((accepted sizes).take (k + 1)).sum) size
    let lowest := (regions.getLast?.map Region.base).getD 0
    let served := (requestAll sizes {}).1
    let s := (requestAll sizes {}).2
    served.map Prod.fst = sizes ∧
    served.filter (fun r => accepts r.1) = regions.map Region.served ∧
    s.offset = .ofInt lowest ∧
    regions.Pairwise (fun r t => ∀ a ∈ r.addresses, a ∉ t.addresses) ∧
    (∀ r ∈ regions, ∀ a ∈ r.addresses, a < 0) ∧
    (⋃ r ∈ regions, r.addresses) = addressesFrom lowest 0 ∧
    (∀ size, accepts size = true ↔ ∃ n : Int, 0 < n ∧ size = .ofInt n) ∧
    (∀ r ∈ served, accepts r.1 = false → r.2 = .error (.badStackSize r.1)) ∧
    requestAll (sizes.filter accepts) {} = (served.filter fun r => accepts r.1, s) := by
  intro regions lowest served s
  have hregions : regions = regionsBelow 0 (accepted sizes) := by
    rw [regionsBelow_eq]
    simp only [Int.zero_sub]
    rfl
  have hlowest : lowest = 0 - (accepted sizes).sum := by
    rw [← base_getLast?_regionsBelow, ← hregions]
  have hkept : requestAll (sizes.filter accepts) {} = (served.filter fun r => accepts r.1, s) :=
    requestAll_filter sizes {}
  have hrun : (served.filter fun r => accepts r.1, s)
      = (regions.map Region.served, ⟨.ofInt lowest⟩) := by
    rw [← hkept, filter_accepts, hregions, hlowest]
    exact requestAll_ofInt accepted_pos (Int.le_refl 0) (by omega)
  have hcover : (⋃ r ∈ regions, r.addresses) = addressesFrom lowest 0 := by
    rw [hregions, hlowest]
    exact iUnion_regionsBelow 0 accepted_pos
  have hmeet : regions.Pairwise fun r t => ∀ a ∈ r.addresses, a ∉ t.addresses := by
    rw [hregions]
    exact pairwise_regionsBelow 0 accepted_pos
  refine ⟨map_fst_requestAll sizes {}, congrArg Prod.fst hrun, congrArg (Stack.offset ·.2) hrun,
    hmeet, fun r hr a ha => ?_, hcover, fun size => accepts_iff, refused_of_mem sizes {}, hkept⟩
  have hcovered : a ∈ ⋃ t ∈ regions, t.addresses :=
    Set.subset_biUnion_of_mem (u := Region.addresses) hr ha
  rw [hcover] at hcovered
  exact hcovered.2

/-- Sizes that come to the bound exactly, with two among them that are refused. -/
theorem regions_tile_stack_to_bound :
    (accepted [8, 0, .nan, 9007199254740984]).sum ≤ 2 ^ 53 ∧
      (requestAll [8, 0, .nan, 9007199254740984] {}).1.filter (fun r => accepts r.1)
        = [(8, .ok (-8)), (9007199254740984, .ok (-9007199254740992))] ∧
      (requestAll [8, 0, .nan, 9007199254740984] {}).2.offset = -9007199254740992 := by
  have hsum : (accepted [8, 0, .nan, 9007199254740984]).sum ≤ 2 ^ 53 := by decide +kernel
  obtain ⟨-, hserved, hoffset, -⟩ := regions_tile_stack [8, 0, .nan, 9007199254740984] hsum
  exact ⟨hsum, hserved.trans (by decide +kernel), hoffset.trans (by decide +kernel)⟩

end Stack

end ProbeScript
