import ProbeScript.Proofs.Forest.Appended
import ProbeScript.Proofs.Workshop.Ruled

/-!
# Proofs/Workshop/Successors — nodes that are linked already

Whether a node is linked already is asked of the node itself, and of the chain it is to go on.  A
node with a parent or a successor is refused by every chain.  The open end of a chain has neither,
so only its own chain refuses it (`linked_nodes_refused`), and any other makes it the successor of a
second node (`open_end_appended_twice`).  Where no open end is appended, no node follows two
(`Ruled.untangled`).
-/

namespace ProbeScript

open Forest

variable {n : NodeId}

/-- The nodes that a step asks to have appended. -/
def Step.appended : Step → List NodeId
  | append _ n => [n]
  | link ns => ns
  | _ => []

namespace Workshop

variable {w w' : Workshop} {log : List Receipt}

/-- The rule to append no open ends of chains. -/
def TakesNoOpenEnd (w : Workshop) (s : Step) : Prop := ∀ n ∈ s.appended, ¬w.forest.OpenEnd n

instance (w : Workshop) (s : Step) : Decidable (w.TakesNoOpenEnd s) :=
  inferInstanceAs (Decidable (∀ n ∈ s.appended, ¬w.forest.OpenEnd n))

theorem untangled_construct (h : w.forest.Untangled) {c : Construct}
    (hlt : ∀ n ∈ c.nodes, n < w.forest.size) (hw : w.construct c = .ok (n, w')) :
    w'.forest.Untangled := by
  refine construct_keeps (P := fun w => w.forest.Untangled) ?_ ?_ h hlt hw
  · rintro w shape h - -
    rw [forest_mint]
    exact h.congr (w.forest.next_add shape)
  · rintro w n module h -
    exact h.congr fun m => next_setModule w.forest n module m

theorem untangled_step (hf : w.forest.Linked) (h : w.forest.Untangled) {s : Step}
    (hs : ∀ n ∈ s.nodes, n < w.forest.size) (hrule : w.TakesNoOpenEnd s) :
    (w.step s).2.forest.Untangled := by
  obtain ⟨c, n, w', rfl, hw, hstep⟩ | ⟨head, n, first, g, rfl, hw, hstep⟩ | ⟨ns, rfl, hstep⟩ |
    ⟨-, arena, hstep⟩ := w.step_cases s <;> rw [hstep]
  · exact untangled_construct h hs hw
  · obtain ⟨hhead, hn⟩ := Step.forall_nodes_append.mp hs
    exact h.append hf hhead hn (hrule n List.mem_cons_self) hw
  · exact h.link hf hs hrule
  · exact h

/-- **Where no open end is appended, no node follows two.** -/
theorem Ruled.untangled (h : Ruled TakesNoOpenEnd w) : w.forest.Untangled := by
  induction h with
  | start => exact .empty
  | step hw s hs hrule ih => exact untangled_step hw.linked ih hs hrule
  | turn _ arena ih => exact ih

/-- **Which nodes are refused.**  In every workshop reached an append fails if and only if the node
has a parent or a successor or is on the chain it is to go on, and joining fails if and only if one
of the nodes has a parent or a successor or comes twice.  So of all linked nodes only the open end
of another chain goes through, and where none is appended no node is the successor of two. -/
theorem linked_nodes_refused (h : Reached w log) :
    (∀ head n, (∀ m ∈ head, m < w.forest.size) → n < w.forest.size →
      ((∃ fault, w.forest.append head n = .error fault) ↔
        w.forest.next n ≠ none ∨ w.forest.parent n ≠ none ∨ n ∈ w.forest.chain head)) ∧
    (∀ ns : List NodeId, (∀ n ∈ ns, n < w.forest.size) →
      ((∃ fault, (w.forest.link ns).1 = .error fault) ↔
        (∃ n ∈ ns, w.forest.next n ≠ none ∨ w.forest.parent n ≠ none) ∨ ¬ns.Nodup)) ∧
    (Ruled TakesNoOpenEnd w → ∀ m k n, w.forest.next m = some n → w.forest.next k = some n →
      m = k) :=
  ⟨fun _ _ hhead hn => h.grown.linked.append_error_iff hhead hn,
    fun _ hns => h.grown.linked.link_error_iff hns, fun hruled => hruled.untangled⟩

/-- Two linked nodes and a third: the first of the two is refused for its successor, the second by
its own chain, and no node follows two. -/
theorem linked_nodes_refused_of_pair : ∃ w log, Reached w log ∧ w.forest.next 0 = some 1 ∧
    (∃ fault, w.forest.append (some 2) 0 = .error fault) ∧
    (∃ fault, w.forest.append (some 0) 1 = .error fault) ∧
    (∃ fault, (w.forest.link [2, 0]).1 = .error fault) ∧
    ∀ m k n, w.forest.next m = some n → w.forest.next k = some n → m = k := by
  have hruled := ((((.start : Ruled TakesNoOpenEnd {}).step (.construct (.var "x")) (by decide)
    (by decide)).step (.construct (.var "y")) (by decide) (by decide)).step (.construct (.var "z"))
    (by decide) (by decide)).step (.link [0, 1]) (by decide) (by decide)
  obtain ⟨log, hpair⟩ := hruled.exists_reached
  obtain ⟨happend, hlink, huntangled⟩ := linked_nodes_refused hpair
  exact ⟨_, log, hpair, by decide, (happend (some 2) 0 (by decide) (by decide)).mpr (by decide),
    (happend (some 0) 1 (by decide) (by decide)).mpr (by decide),
    (hlink [2, 0] (by decide)).mpr (by decide), huntangled hruled⟩

/-- **The open end of a chain is appended to another chain**, or joined to another node, and comes
to follow two nodes. -/
theorem open_end_appended_twice : ∃ w log, Reached w log ∧ w.forest.next 0 = some 1 ∧
    (w.step (.append (some 2) 1)).1 = .ok (some 2) ∧
    (w.step (.append (some 2) 1)).2.forest.next 0 = some 1 ∧
    (w.step (.append (some 2) 1)).2.forest.next 2 = some 1 ∧
    (w.step (.link [2, 1])).1 = .ok (some 2) := by
  have hpair := (((Reached.start.step (.construct (.var "x")) (by decide)).step
    (.construct (.var "y")) (by decide)).step (.construct (.var "z")) (by decide)).step
    (.link [0, 1]) (by decide)
  exact ⟨_, _, hpair, by decide, by decide, by decide, by decide, by decide⟩

end Workshop

end ProbeScript
