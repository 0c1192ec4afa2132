import ProbeScript.Proofs.Forest.Adding

/-!
# Proofs/Forest/Grown — forests that grow, with a log of what was built over what

A forest grows in three ways: a node is built over others, a last node gets a successor, a call gets
its module.  A log keeps a receipt for each node built, the latest first: the nodes it was built
over.  Along the way links lead to nodes in use and chains end (`Grown.linked`), what a node has
received stays right below it (`Grown.mem_children`), and the parent of a node is the one that
received it last (`Grown.parent_eq`).
-/

namespace ProbeScript

/-- A node built, and the nodes it was built over. -/
structure Receipt where
  node : NodeId
  received : List NodeId
  deriving DecidableEq

/-- The latest node built over a node, going by a log that has the latest receipt first. -/
def lastReceiver (log : List Receipt) (n : NodeId) : Option NodeId :=
  (log.find? fun r => n ∈ r.received).map Receipt.node

/-- The node by which a place is known. -/
def Slot.first : Slot → NodeId
  | one child => child
  | chain head => head

namespace Forest

variable {f g : Forest} {n m p last : NodeId} {head : Option NodeId} {log : List Receipt}

/-! ## Links to nodes in use -/

/-- Successors are in use, nodes are built over older ones, and chains end. -/
structure Linked (f : Forest) : Prop where
  next_lt : ∀ {n m}, f.next n = some m → m < f.size
  slot_lt : ∀ {n s}, s ∈ (f.shape n).slots → s.first < n
  ends : ∀ n, ∃ ns, f.Chained (some n) ns

namespace Linked

theorem lt_of_chained (hf : f.Linked) {ns : List NodeId} (h : f.Chained head ns)
    (hhead : ∀ n ∈ head, n < f.size) : ∀ n ∈ ns, n < f.size := by
  induction h with
  | nil => exact fun _ hn => absurd hn List.not_mem_nil
  | cons _ ih =>
    intro m hm
    rcases List.mem_cons.mp hm with rfl | hm
    · exact hhead m rfl
    · exact ih (fun _ hn => hf.next_lt hn) m hm

/-- **The chain from a head in use leads to an end.** -/
theorem chained (hf : f.Linked) (hhead : ∀ n ∈ head, n < f.size) :
    f.Chained head (f.chain head) := by
  obtain ⟨ns, hns⟩ : ∃ ns, f.Chained head ns := by
    cases head with
    | none => exact ⟨[], .nil⟩
    | some n => exact hf.ends n
  rwa [hns.chain_eq (hf.lt_of_chained hns hhead)]

theorem lt_of_mem_chain (hf : f.Linked) (hhead : ∀ n ∈ head, n < f.size)
    (hn : n ∈ f.chain head) : n < f.size :=
  hf.lt_of_chained (hf.chained hhead) hhead n hn

theorem lt_of_mem_fill (hf : f.Linked) {s : Slot} (hs : s.first < f.size) (hn : n ∈ f.fill s) :
    n < f.size := by
  cases s with
  | one child => rwa [List.mem_singleton.mp hn]
  | chain head => exact hf.lt_of_mem_chain (fun _ h => Option.mem_some.mp h ▸ hs) hn

/-- A place holds the same nodes while successors stay. -/
theorem fill_congr (hf : f.Linked) {s : Slot} (hs : s.first < f.size)
    (hnext : ∀ n, g.next n = f.next n) (hsize : f.size ≤ g.size) : g.fill s = f.fill s := by
  cases s with
  | one child => rfl
  | chain head =>
    have hhead : ∀ n ∈ some head, n < f.size := fun _ h => Option.mem_some.mp h ▸ hs
    exact (hf.chained hhead).chain_congr (hf.lt_of_chained (hf.chained hhead) hhead)
      (fun n _ => hnext n) hsize

/-- The places below a node in use are known by nodes in use. -/
theorem slot_lt_size (hf : f.Linked) {s : Slot} (hs : s ∈ (f.shape n).slots) :
    s.first < f.size := by
  by_cases hn : n < f.size
  · exact Nat.lt_trans (hf.slot_lt hs) hn
  · rw [shape, f.node_eq_default (Nat.le_of_not_lt hn)] at hs
    exact absurd hs List.not_mem_nil

theorem children_congr (hf : f.Linked) (hslots : (g.shape n).slots = (f.shape n).slots)
    (hnext : ∀ n, g.next n = f.next n) (hsize : f.size ≤ g.size) :
    g.children n = f.children n := by
  rw [children, children, hslots]
  exact List.flatMap_congr fun s hs => hf.fill_congr (hf.slot_lt_size hs) hnext hsize

end Linked

/-! ## The three ways to grow -/

/-- A node can become the successor of another, which is the last of its chain. -/
structure CanFollow (f : Forest) (last n : NodeId) : Prop where
  next_last : f.next last = none
  free : f.Free n
  ne : last ≠ n
  last_lt : last < f.size
  lt : n < f.size

/-- The forests that can be grown, each with the log of what was built. -/
inductive Grown : Forest → List Receipt → Prop where
  | empty : Grown {} []
  | add {f : Forest} {log : List Receipt} (shape : Shape) (h : Grown f log)
      (hslots : ∀ s ∈ shape.slots, s.first < f.size) :
      Grown (f.add shape).2 (⟨f.size, shape.slots.flatMap f.fill⟩ :: log)
  | setNext {f : Forest} {log : List Receipt} {last n : NodeId} (h : Grown f log)
      (hn : f.CanFollow last n) : Grown (f.setNext last n) log
  | setModule {f : Forest} {log : List Receipt} (h : Grown f log) (n : NodeId) (module : String) :
      Grown (f.setModule n module) log

theorem linked_empty : Linked {} where
  next_lt h := nomatch h
  slot_lt h := nomatch h
  ends n := ⟨[n], .single rfl⟩

theorem Linked.add (hf : f.Linked) {shape : Shape} (hslots : ∀ s ∈ shape.slots, s.first < f.size) :
    (f.add shape).2.Linked where
  next_lt {n m} h := by
    rw [next_add] at h
    rw [size_add]
    exact Nat.lt_succ_of_lt (hf.next_lt h)
  slot_lt {n s} hs := by
    rw [shape_add] at hs
    split at hs
    · rename_i hn
      exact hn ▸ hslots s hs
    · exact hf.slot_lt hs
  ends n := by
    obtain ⟨ns, hns⟩ := hf.ends n
    exact ⟨ns, hns.congr fun _ _ => next_add ..⟩

theorem Linked.setNext (hf : f.Linked) (hn : f.CanFollow last n) : (f.setNext last n).Linked where
  next_lt {k m} h := by
    rw [next_setNext] at h
    rw [size_setNext]
    split at h
    · exact Option.some.inj h ▸ hn.lt
    · exact hf.next_lt h
  slot_lt {k s} hs := hf.slot_lt (by rwa [shape_setNext] at hs)
  ends k := by
    obtain ⟨ns, hns⟩ := hf.ends k
    exact ⟨_, hns.setNext hn.next_last hn.free.next hn.ne hn.last_lt⟩

theorem Linked.setModule (hf : f.Linked) (n : NodeId) (module : String) :
    (f.setModule n module).Linked where
  next_lt h := by
    rw [next_setModule] at h
    rw [size_setModule]
    exact hf.next_lt h
  slot_lt hs := hf.slot_lt (by rwa [slots_setModule] at hs)
  ends k := by
    obtain ⟨ns, hns⟩ := hf.ends k
    exact ⟨ns, hns.congr fun _ _ => next_setModule ..⟩

/-- A chain goes on with the new successor of its last node, and any other stays as it is. -/
theorem Linked.chain_setNext (hf : f.Linked) (hn : f.CanFollow last n)
    (hhead : ∀ m ∈ head, m < f.size) :
    (f.setNext last n).chain head
      = if last ∈ f.chain head then f.chain head ++ [n] else f.chain head := by
  have hlonger := (hf.chained hhead).setNext hn.next_last hn.free.next hn.ne hn.last_lt
  exact hlonger.chain_eq ((hf.setNext hn).lt_of_chained hlonger fun k hk => by
    rw [size_setNext]
    exact hhead k hk)

/-- **In a forest that has grown links lead to nodes in use, and chains end.** -/
theorem Grown.linked (h : Grown f log) : f.Linked := by
  induction h with
  | empty => exact linked_empty
  | add shape _ hslots ih => exact ih.add hslots
  | setNext _ hn ih => exact ih.setNext hn
  | setModule _ n module ih => exact ih.setModule n module

/-! ## What each way to grow leaves right below the nodes -/

namespace Linked

theorem children_push (hf : f.Linked) {shape : Shape}
    (hslots : ∀ s ∈ shape.slots, s.first < f.size) :
    (f.push shape).children f.size = shape.slots.flatMap f.fill := by
  rw [children, shape_push, if_pos rfl]
  exact List.flatMap_congr fun s hs =>
    hf.fill_congr (hslots s hs) (f.next_push shape) (by rw [size_push]; exact Nat.le_succ _)

/-- **A new node has right below it what it was built over**, and the others keep their children. -/
theorem children_add (hf : f.Linked) {shape : Shape}
    (hslots : ∀ s ∈ shape.slots, s.first < f.size) (m : NodeId) :
    (f.add shape).2.children m
      = if m = f.size then shape.slots.flatMap f.fill else f.children m := by
  have hsize : f.size ≤ (f.add shape).2.size := by rw [size_add]; exact Nat.le_succ _
  split
  · rename_i hm
    rw [children, shape_add, if_pos hm]
    exact List.flatMap_congr fun s hs => hf.fill_congr (hslots s hs) (f.next_add shape) hsize
  · rename_i hm
    exact hf.children_congr (by rw [shape_add, if_neg hm]) (f.next_add shape) hsize

/-- A chain goes on as before when a last node gets a successor. -/
theorem mem_fill_setNext (hf : f.Linked) (hn : f.CanFollow last n) {s : Slot}
    (hs : s.first < f.size) (hm : m ∈ f.fill s) : m ∈ (f.setNext last n).fill s := by
  cases s with
  | one child => exact hm
  | chain head =>
    have hhead : ∀ k ∈ some head, k < f.size := fun _ h => Option.mem_some.mp h ▸ hs
    rw [fill, hf.chain_setNext hn hhead]
    split
    · exact List.mem_append_left _ hm
    · exact hm

/-- Nothing right below a node is lost when a last node gets a successor. -/
theorem mem_children_setNext (hf : f.Linked) (hn : f.CanFollow last n) (hm : m ∈ f.children p) :
    m ∈ (f.setNext last n).children p := by
  obtain ⟨s, hs, hms⟩ := List.mem_flatMap.mp hm
  exact List.mem_flatMap.mpr ⟨s, by rwa [shape_setNext],
    hf.mem_fill_setNext hn (hf.slot_lt_size hs) hms⟩

end Linked

/-! ## What the log says about the forest -/

theorem Grown.node_lt (h : Grown f log) : ∀ r ∈ log, r.node < f.size := by
  induction h with
  | empty => exact fun _ hr => absurd hr List.not_mem_nil
  | add shape _ _ ih =>
    intro r hr
    rw [size_add]
    rcases List.mem_cons.mp hr with rfl | hr
    · exact Nat.lt_succ_self _
    · exact Nat.lt_succ_of_lt (ih r hr)
  | setNext _ _ ih => simpa only [size_setNext] using ih
  | setModule _ _ _ ih => simpa only [size_setModule] using ih

/-- What a node has received was built before it. -/
theorem Grown.received_lt (h : Grown f log) : ∀ r ∈ log, ∀ n ∈ r.received, n < r.node := by
  induction h with
  | empty => exact fun _ hr => absurd hr List.not_mem_nil
  | add shape h hslots ih =>
    intro r hr n hn
    rcases List.mem_cons.mp hr with rfl | hr
    · obtain ⟨s, hs, hns⟩ := List.mem_flatMap.mp hn
      exact h.linked.lt_of_mem_fill (hslots s hs) hns
    · exact ih r hr n hn
  | setNext _ _ ih => exact ih
  | setModule _ _ _ ih => exact ih

/-- **What a node has received stays right below it.** -/
theorem Grown.mem_children (h : Grown f log) :
    ∀ r ∈ log, ∀ n ∈ r.received, n ∈ f.children r.node := by
  induction h with
  | empty => exact fun _ hr => absurd hr List.not_mem_nil
  | add shape h hslots ih =>
    intro r hr n hn
    rw [h.linked.children_add hslots]
    rcases List.mem_cons.mp hr with rfl | hr
    · rwa [if_pos rfl]
    · rw [if_neg (Nat.ne_of_lt (h.node_lt r hr))]
      exact ih r hr n hn
  | setNext h hn ih => exact fun r hr m hm => h.linked.mem_children_setNext hn (ih r hr m hm)
  | setModule h n module ih =>
    intro r hr m hm
    rw [h.linked.children_congr (slots_setModule ..) (next_setModule _ n module)
      (Nat.le_of_eq (size_setModule ..).symm)]
    exact ih r hr m hm

/-- **The parent of a node is the one that received it last.** -/
theorem Grown.parent_eq (h : Grown f log) (n : NodeId) : f.parent n = lastReceiver log n := by
  induction h with
  | empty => rfl
  | @add f log shape h hslots ih =>
    rw [parent_add, h.linked.children_push hslots, lastReceiver, List.find?_cons]
    by_cases hn : n ∈ shape.slots.flatMap f.fill
    · obtain ⟨s, hs, hns⟩ := List.mem_flatMap.mp hn
      have hlt := Nat.lt_succ_of_lt (h.linked.lt_of_mem_fill (hslots s hs) hns)
      rw [if_pos ⟨hn, hlt⟩, decide_eq_true hn]
      rfl
    · rw [if_neg fun hc => hn hc.1, decide_eq_false hn]
      exact ih
  | setNext _ _ ih => rw [parent_setNext, ih]
  | setModule _ m module ih => rw [parent_setModule, ih]

end Forest

end ProbeScript
