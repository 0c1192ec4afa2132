import ProbeScript.Proofs.Expression.Planted

/-!
# Proofs/Forest/Closed — lists that no longer grow

A list grows only at a last node without a parent.  So once all nodes right below a node have
parents, as they do when it is built, its lists are closed: what was counted in them stays counted,
and what lies below it was built before it.  A forest is closed when this holds of all its nodes.
Building a node keeps it closed, and so does an append to a chain none of whose nodes has a parent
(`Closed.append`); joining nodes is made of such appends (`Closed.link`).
-/

namespace ProbeScript.Forest

variable {f g : Forest} {n m last : NodeId} {head : Option NodeId} {ns : List NodeId}

/-- A chain none of whose nodes has a parent. -/
def Open (f : Forest) (head : Option NodeId) : Prop := ∀ n ∈ f.chain head, f.parent n = none

instance (f : Forest) (head : Option NodeId) : Decidable (f.Open head) :=
  inferInstanceAs (Decidable (∀ n ∈ f.chain head, f.parent n = none))

/-- All lists below nodes are closed, and what was counted in them is right. -/
structure Closed (f : Forest) : Prop where
  parent_ne : ∀ {n m}, m ∈ f.children n → f.parent m ≠ none
  lt : ∀ {n m}, m ∈ f.children n → m < n
  counted : ∀ n, (f.shape n).Counted f.chain

/-! ## Chains and a new successor -/

theorem Linked.fill_setNext_of_notMem (hf : f.Linked) (hn : f.CanFollow last n) {s : Slot}
    (hs : s.first < f.size) (hlast : last ∉ f.fill s) : (f.setNext last n).fill s = f.fill s := by
  cases s with
  | one child => rfl
  | chain head =>
    have hhead : ∀ k ∈ some head, k < f.size := fun _ h => Option.mem_some.mp h ▸ hs
    exact (hf.chain_setNext hn hhead).trans (if_neg hlast)

namespace Closed

theorem empty : Closed {} where
  parent_ne hm := absurd (lt_size_of_mem_children hm) (Nat.not_lt_zero _)
  lt hm := absurd (lt_size_of_mem_children hm) (Nat.not_lt_zero _)
  counted _ := trivial

/-- Nodes keep closed lists while what is in their places stays and no parent is lost. -/
theorem congr (h : f.Closed) (hchildren : ∀ n, g.children n = f.children n)
    (hparent : ∀ n, f.parent n ≠ none → g.parent n ≠ none)
    (hcounted : ∀ n, (g.shape n).Counted g.chain) : g.Closed where
  parent_ne hm := hparent _ (h.parent_ne (hchildren _ ▸ hm))
  lt hm := h.lt (hchildren _ ▸ hm)
  counted := hcounted

/-! ## Building -/

/-- **A node built over others closes their lists**: it becomes the parent of all of them. -/
theorem add (h : f.Closed) (hf : f.Linked) {shape : Shape}
    (hslots : ∀ s ∈ shape.slots, s.first < f.size) (hcounted : shape.Counted f.chain) :
    (f.add shape).2.Closed := by
  have hfill : ∀ s : Slot, s.first < f.size → (f.add shape).2.fill s = f.fill s := fun s hs =>
    hf.fill_congr hs (f.next_add shape) (by rw [size_add]; exact Nat.le_succ _)
  have hchains : ∀ {t : Shape}, t.Counted f.chain → (∀ s ∈ t.slots, s.first < f.size) →
      t.Counted (f.add shape).2.chain := fun ht hlt =>
    ht.congr (by rw [chain_none, chain_none]) fun head hs => hfill _ (hlt _ hs)
  have hlt : ∀ m ∈ shape.slots.flatMap f.fill, m < f.size := fun m hm => by
    obtain ⟨s, hs, hms⟩ := List.mem_flatMap.mp hm
    exact hf.lt_of_mem_fill (hslots s hs) hms
  refine ⟨fun {n m} hm => ?_, fun {n m} hm => ?_, fun n => ?_⟩
  · rw [parent_add, hf.children_push hslots]
    split
    · exact Option.some_ne_none _
    · rename_i hnew
      rw [hf.children_add hslots] at hm
      split at hm
      · exact absurd ⟨hm, Nat.lt_succ_of_lt (hlt m hm)⟩ hnew
      · exact h.parent_ne hm
  · rw [hf.children_add hslots] at hm
    split at hm
    · rename_i hn
      exact hn ▸ hlt m hm
    · exact h.lt hm
  · rw [shape_add]
    split
    · exact hchains hcounted hslots
    · exact hchains (h.counted n) fun s hs => hf.slot_lt_size hs

theorem setModule (h : f.Closed) (hf : f.Linked) (hn : n < f.size) (module : String) :
    (f.setModule n module).Closed := by
  have hsize : f.size ≤ (f.setModule n module).size := Nat.le_of_eq (size_setModule ..).symm
  refine h.congr (fun m => hf.children_congr (slots_setModule ..) (next_setModule _ n module) hsize)
    (fun m => by rw [parent_setModule]; exact id) fun m => counted_setModule hn ?_
  exact (h.counted m).congr (by rw [chain_none, chain_none]) fun head hs =>
    hf.fill_congr (s := .chain head) (hf.slot_lt_size hs) (next_setModule _ n module) hsize

/-! ## Appending -/

/-- **A last node without a parent is in no list below a node**, so its successor changes none. -/
theorem setNext (h : f.Closed) (hf : f.Linked) (hn : f.CanFollow last n)
    (hlast : f.parent last = none) : (f.setNext last n).Closed := by
  have hfill : ∀ m, ∀ s ∈ (f.shape m).slots, (f.setNext last n).fill s = f.fill s := fun m s hs =>
    hf.fill_setNext_of_notMem hn (hf.slot_lt_size hs) fun hmem =>
      h.parent_ne (List.mem_flatMap.mpr ⟨s, hs, hmem⟩) hlast
  refine h.congr (fun m => ?_) (fun m => by rw [parent_setNext]; exact id) fun m => ?_
  · rw [children, children, shape_setNext]
    exact List.flatMap_congr (hfill m)
  · rw [shape_setNext]
    exact (h.counted m).congr (by rw [chain_none, chain_none]) fun head hs => hfill m _ hs

/-- **An append to an open chain leaves all lists closed and the chain open.** -/
theorem append (h : f.Closed) (hf : f.Linked) (hhead : ∀ m ∈ head, m < f.size) (hn : n < f.size)
    (hopen : f.Open head) {first : NodeId} (happend : f.append head n = .ok (first, g)) :
    g.Closed ∧ g.Open (some first) := by
  have hchain := hf.chain_append hhead hn happend
  obtain ⟨hfree, -, ⟨-, -, rfl⟩ | ⟨last, -, hlast, hfollow, rfl⟩⟩ := hf.append_ok hhead hn happend
  · refine ⟨h, fun m hm => ?_⟩
    rw [hchain, List.mem_append, List.mem_singleton] at hm
    exact hm.elim (hopen m) fun hm => hm ▸ hfree.parent
  · refine ⟨h.setNext hf hfollow (hopen last (List.mem_of_getLast? hlast)), fun m hm => ?_⟩
    rw [hchain, List.mem_append, List.mem_singleton] at hm
    rw [parent_setNext]
    exact hm.elim (hopen m) fun hm => hm ▸ hfree.parent

/-- **Joining nodes leaves all lists closed**: they form a chain none of whose nodes has a parent, as
far as they are joined. -/
theorem link (h : f.Closed) (hf : f.Linked) (hns : ∀ n ∈ ns, n < f.size) : (f.link ns).2.Closed := by
  have hstart : f.Open none := fun m hm => absurd (f.chain_none ▸ hm) List.not_mem_nil
  obtain ⟨-, hlinked, -⟩ := Linked.linkFrom_keeps (P := fun f head => f.Closed ∧ f.Open head) ns
    (fun hf hhead _ hn happend ⟨h, hopen⟩ => h.append hf hhead hn hopen happend) hf
    (fun _ hm => absurd hm (Option.not_mem_none _)) hns ⟨h, hstart⟩
  exact hlinked

end Closed

end ProbeScript.Forest
