import Mathlib.Data.List.Nodup
import ProbeScript.Frame.Registers

/-!
# Proofs/Frame/Granted — registers granted one after the other

A register is granted while both pools hold it, and then leaves one of them.  So the pools tell more
together than each alone: the pool of a class holds the registers not granted to that class, and
what both hold is granted to neither, which are the scratch registers from some place on
(`Granted`).  A request takes the first of these, whichever class asks (`Granted.acquire`), and so
the requests get the scratch registers in order, each once, until there are none
(`registers_granted_in_order`).
-/

namespace ProbeScript

theorem nodup_scratchRegisters : scratchRegisters.Nodup := by decide

theorem RegisterClass.forall_iff {P : RegisterClass → Prop} :
    (∀ cls, P cls) ↔ P static ∧ P dynamic :=
  ⟨fun h => ⟨h _, h _⟩, fun ⟨hstatic, hdynamic⟩ cls => by cases cls <;> assumption⟩

namespace Registers

variable {r : Registers} {cls : RegisterClass} {n : Nat}
  {served : List (RegisterClass × Option Nat)}

/-- Grants registers to classes in order; each class is listed with its answer. -/
def acquireAll : List RegisterClass → Registers → List (RegisterClass × Option Nat) × Registers
  | [], r => ([], r)
  | cls :: rest, r =>
    let (granted, r) := r.acquire cls
    let (served, r) := acquireAll rest r
    ((cls, granted) :: served, r)

theorem acquireAll_cons (cls : RegisterClass) (rest : List RegisterClass) (r : Registers) :
    acquireAll (cls :: rest) r
      = ((cls, (r.acquire cls).1) :: (acquireAll rest (r.acquire cls).2).1,
        (acquireAll rest (r.acquire cls).2).2) := rfl

/-! ## Pools and masks -/

/-- Both pools have a say, so both classes can be granted the same registers. -/
theorem isFree_iff : r.isFree cls n = true ↔ ∀ c, n ∈ r.pool c := by
  simp only [isFree, Bool.and_eq_true, List.contains_iff_mem]
  constructor
  · rintro ⟨hown, hother⟩ c
    cases cls <;> cases c <;> assumption
  · exact fun h => ⟨h cls, h cls.other⟩

theorem mem_available_iff : n ∈ r.available cls ↔ n ∈ scratchRegisters ∧ ∀ c, n ∈ r.pool c := by
  rw [available, List.mem_filter, isFree_iff]

theorem pool_take (r : Registers) (n : Nat) (cls c : RegisterClass) :
    (r.take n cls).pool c = if c = cls then (r.pool c).erase n else r.pool c := by
  cases cls <;> cases c <;> rfl

/-- A register is free afterwards if it was so before and is not the one taken. -/
theorem available_take (hnodup : (r.pool cls).Nodup) (c : RegisterClass) :
    (r.take n cls).available c = (r.available c).filter (· != n) := by
  rw [available, available, List.filter_filter]
  refine List.filter_congr fun m _ => ?_
  rw [Bool.eq_iff_iff, Bool.and_eq_true, bne_iff_ne, isFree_iff, isFree_iff]
  simp only [pool_take]
  constructor
  · intro hm
    have hmtaken := hm cls
    rw [if_pos rfl, hnodup.mem_erase_iff] at hmtaken
    refine ⟨hmtaken.1, fun c => ?_⟩
    by_cases hc : c = cls
    · exact hc ▸ hmtaken.2
    · simpa [hc] using hm c
  · rintro ⟨hne, hm⟩ c
    split
    · exact (List.mem_erase_of_ne hne).mpr (hm c)
    · exact hm c

/-- A class gets the first register that is available to it. -/
theorem acquire_of_some (h : (r.available cls).head? = some n) :
    r.acquire cls = (some n, r.take n cls) := by
  rw [available, List.head?_filter] at h
  rw [acquire, h]

theorem acquire_of_none (h : (r.available cls).head? = none) : r.acquire cls = (none, r) := by
  rw [available, List.head?_filter] at h
  rw [acquire, h]

theorem testBit_foldl {bits : Nat} {pool : List Nat} :
    (pool.foldl (fun bits register => bits ||| 1 <<< register) bits).testBit n = true ↔
      bits.testBit n = true ∨ n ∈ pool := by
  induction pool generalizing bits with
  | nil => simp
  | cons register pool ih =>
    rw [List.foldl_cons, ih, Nat.testBit_or, Nat.one_shiftLeft, Nat.testBit_two_pow,
      Bool.or_eq_true, decide_eq_true_iff, List.mem_cons, or_assoc, eq_comm (a := register)]

/-- The bits of a mask are the registers in the pool. -/
theorem testBit_mask : (r.mask cls).testBit n = true ↔ n ∈ r.pool cls := by
  rw [mask, testBit_foldl, Nat.zero_testBit]
  simp

/-- Taking a register out of a pool clears its bit and no other. -/
theorem mask_take (hnodup : (r.pool cls).Nodup) (hn : n ∈ r.pool cls) :
    (r.take n cls).mask cls = r.mask cls ^^^ 1 <<< n := by
  refine Nat.eq_of_testBit_eq fun m => ?_
  rw [Nat.testBit_xor, Nat.one_shiftLeft, Nat.testBit_two_pow, Bool.eq_iff_iff, testBit_mask,
    pool_take, if_pos rfl, hnodup.mem_erase_iff]
  by_cases hm : n = m
  · subst hm
    simp [testBit_mask.mpr hn]
  · simp [hm, Ne.symm hm, testBit_mask]

theorem mask_take_other (r : Registers) (n : Nat) (cls : RegisterClass) :
    (r.take n cls).mask cls.other = r.mask cls.other := by
  cases cls <;> rfl

/-! ## What is left after requests -/

/-- The pools after requests that were answered as listed. -/
structure Granted (r : Registers) (served : List (RegisterClass × Option Nat)) : Prop where
  /-- A pool holds what was not granted to its class. -/
  pool_eq : ∀ cls, r.pool cls = scratchRegisters.filter fun n => (cls, some n) ∉ served
  /-- As many scratch registers are gone, in order, as requests were made. -/
  available_eq : ∀ cls, r.available cls = scratchRegisters.drop served.length

namespace Granted

theorem fresh : Granted {} [] where
  pool_eq cls := by cases cls <;> rfl
  available_eq cls := by cases cls <;> rfl

theorem nodup_pool (h : Granted r served) (cls : RegisterClass) : (r.pool cls).Nodup := by
  rw [h.pool_eq]
  exact nodup_scratchRegisters.filter _

/-- The next register to be granted is the same for both classes. -/
theorem head?_available (h : Granted r served) (cls : RegisterClass) :
    (r.available cls).head? = scratchRegisters[served.length]? := by
  rw [h.available_eq, List.head?_drop]

/-- Once there were as many requests as there are registers, none is granted and nothing changes. -/
theorem exhausted (h : Granted r served) (hlen : scratchRegisters.length ≤ served.length)
    (cls : RegisterClass) : r.acquire cls = (none, r) :=
  acquire_of_none (by rw [h.head?_available, List.getElem?_eq_none hlen])

/-- **A grant takes the first of the registers left**, out of one pool. -/
theorem take (h : Granted r served) (hn : scratchRegisters[served.length]? = some n)
    (cls : RegisterClass) : Granted (r.take n cls) (served ++ [(cls, some n)]) where
  pool_eq c := by
    rw [pool_take, h.pool_eq, (nodup_scratchRegisters.filter _).erase_eq_filter,
      List.filter_filter]
    split
    · rename_i hc
      refine List.filter_congr fun m _ => ?_
      rw [Bool.eq_iff_iff, Bool.and_eq_true, bne_iff_ne]
      simp [hc, and_comm]
    · rename_i hc
      refine List.filter_congr fun m _ => ?_
      simp [hc]
  available_eq c := by
    obtain ⟨hlt, rfl⟩ := List.getElem?_eq_some_iff.mp hn
    have hleft := List.drop_eq_getElem_cons hlt
    have hnodup := nodup_scratchRegisters.sublist (List.drop_sublist served.length _)
    rw [hleft, List.nodup_cons] at hnodup
    rw [available_take (h.nodup_pool cls), h.available_eq, hleft,
      List.filter_cons_of_neg (by simp), List.filter_eq_self.mpr, List.length_append]
    · rfl
    · exact fun m hm => bne_iff_ne.mpr fun heq => hnodup.1 (heq ▸ hm)

/-- **A request is answered by its place among the requests**, whichever class asks. -/
theorem acquire (h : Granted r served) (cls : RegisterClass) :
    (r.acquire cls).1 = scratchRegisters[served.length]? ∧
      Granted (r.acquire cls).2 (served ++ [(cls, (r.acquire cls).1)]) := by
  have hnext := h.head?_available cls
  cases hn : scratchRegisters[served.length]? with
  | some n =>
    rw [acquire_of_some (hnext.trans hn)]
    exact ⟨rfl, h.take hn cls⟩
  | none =>
    rw [acquire_of_none (hnext.trans hn)]
    refine ⟨rfl, fun c => ?_, fun c => ?_⟩
    · rw [h.pool_eq]
      simp
    · have hlen := List.getElem?_eq_none_iff.mp hn
      rw [h.available_eq, List.drop_eq_nil_of_le hlen, List.drop_eq_nil_of_le (by simp; omega)]

/-- **The requests are answered with the scratch registers in order.** -/
theorem acquireAll (classes : List RegisterClass) :
    ∀ {r : Registers} {served : List (RegisterClass × Option Nat)}, Granted r served →
      (acquireAll classes r).1
        = classes.mapIdx (fun i cls => (cls, scratchRegisters[served.length + i]?)) ∧
      Granted (acquireAll classes r).2 (served ++ (acquireAll classes r).1) := by
  induction classes with
  | nil => exact fun h => ⟨rfl, by simpa [Registers.acquireAll] using h⟩
  | cons cls classes ih =>
    intro r served h
    obtain ⟨hanswer, hnext⟩ := h.acquire cls
    obtain ⟨hrest, hend⟩ := ih hnext
    rw [acquireAll_cons, List.mapIdx_cons]
    refine ⟨?_, by simpa using hend⟩
    rw [hrest, hanswer]
    simp [Nat.add_assoc, Nat.add_comm 1]

end Granted

/-- What is granted, in the order of the requests, are the first of the registers. -/
theorem filterMap_mapIdx (classes : List RegisterClass) (registers : List Nat) :
    (classes.mapIdx fun i cls => (cls, registers[i]?)).filterMap Prod.snd
      = registers.take classes.length := by
  induction classes generalizing registers with
  | nil => rfl
  | cons cls classes ih =>
    cases registers with
    | nil => simpa [List.mapIdx_cons] using ih []
    | cons n registers => simpa [List.mapIdx_cons] using ih registers

/-- **Requests of any classes are granted the scratch registers in order**, and none once these are
exhausted.  So no register is granted twice, be it to one class or to both.  The mask of a class has
the bits of the registers not granted to that class, and what is available to either class is what
was granted to none of them, the bits that both masks have.  A grant clears one bit of one mask. -/
theorem registers_granted_in_order (classes : List RegisterClass) :
    let served := (acquireAll classes {}).1
    let r := (acquireAll classes {}).2
    served = classes.mapIdx (fun i cls => (cls, scratchRegisters[i]?)) ∧
    (scratchRegisters.length ≤ classes.length → ∀ cls, r.acquire cls = (none, r)) ∧
    (served.filterMap Prod.snd).Nodup ∧
    (∀ n, (.static, some n) ∈ served → (.dynamic, some n) ∉ served) ∧
    (∀ cls n, (r.mask cls).testBit n = true ↔ n ∈ scratchRegisters ∧ (cls, some n) ∉ served) ∧
    (∀ cls, r.available cls = scratchRegisters.filter fun n =>
      (.static, some n) ∉ served ∧ (.dynamic, some n) ∉ served) ∧
    (∀ cls n, n ∈ r.available cls ↔ (r.mask .static &&& r.mask .dynamic).testBit n = true) ∧
    ∀ cls n, (r.acquire cls).1 = some n →
      (r.mask cls).testBit n = true ∧ (r.acquire cls).2.mask cls = r.mask cls ^^^ 1 <<< n ∧
        (r.acquire cls).2.mask cls.other = r.mask cls.other := by
  intro served r
  obtain ⟨hserved, h⟩ := Granted.fresh.acquireAll classes
  change served = _ at hserved
  change r.Granted served at h
  simp only [List.length_nil, Nat.zero_add] at hserved
  have hlen : served.length = classes.length := by rw [hserved, List.length_mapIdx]
  have hpool : ∀ cls n, n ∈ r.pool cls ↔ n ∈ scratchRegisters ∧ (cls, some n) ∉ served :=
    fun cls n => by simp [h.pool_eq]
  refine ⟨hserved, fun hmany => h.exhausted (hlen ▸ hmany), ?_, fun n hstatic hdynamic => ?_,
    fun cls n => testBit_mask.trans (hpool cls n), fun cls => ?_, fun cls n => ?_,
    fun cls n hn => ?_⟩
  · rw [hserved, filterMap_mapIdx]
    exact nodup_scratchRegisters.sublist (List.take_sublist _ _)
  · -- A register is granted to the class in its own place.
    rw [hserved, List.mem_mapIdx] at hstatic hdynamic
    obtain ⟨i, hi, hplacei⟩ := hstatic
    obtain ⟨j, hj, hplacej⟩ := hdynamic
    obtain ⟨hclassi, hni⟩ := Prod.mk.inj hplacei
    obtain ⟨hclassj, hnj⟩ := Prod.mk.inj hplacej
    obtain ⟨hlt, -⟩ := List.getElem?_eq_some_iff.mp hni
    obtain rfl : i = j := (List.getElem?_inj hlt nodup_scratchRegisters).mp (hni.trans hnj.symm)
    cases hclassi.symm.trans hclassj
  · refine List.filter_congr fun n hn => ?_
    rw [Bool.eq_iff_iff, isFree_iff, RegisterClass.forall_iff, hpool, hpool]
    simp [hn]
  · rw [mem_available_iff, RegisterClass.forall_iff, Nat.testBit_and, Bool.and_eq_true,
      testBit_mask, testBit_mask, and_iff_right_iff_imp]
    exact fun hn => ((hpool _ n).mp hn.1).1
  · cases hnext : (r.available cls).head? with
    | none =>
      rw [acquire_of_none hnext] at hn
      cases hn
    | some m =>
      rw [acquire_of_some hnext] at hn ⊢
      obtain rfl : m = n := Option.some.inj hn
      have hm : m ∈ r.pool cls := (mem_available_iff.mp (List.mem_of_head? hnext)).2 cls
      exact ⟨testBit_mask.mpr hm, mask_take (h.nodup_pool cls) hm, mask_take_other r m cls⟩

/-- The mask of one class has lost two bits and that of the other one bit, and nothing is left. -/
example :
    let r := (acquireAll [.static, .dynamic, .static, .dynamic] {}).2
    r.mask .static = 1 <<< 7 ∧ r.mask .dynamic = 1 <<< 6 ||| 1 <<< 8 ∧
      r.available .static = [] := by
  decide

end Registers

end ProbeScript
