import ProbeScript.Proofs.Forest.Appended
import ProbeScript.Proofs.Workshop.Reached

/-!
# Proofs/Workshop/Joined — what appending and joining come to, faults included

An append is told in one equation (`Forest.append_eq`), and one that goes through writes one link.
Joining goes on for as long as the nodes are free and none of them comes twice.  The nodes before
the first that is refused are joined as if they had been the whole list (`Linked.link_outcome`).
-/

namespace ProbeScript

namespace Forest

variable {f g : Forest} {head : Option NodeId} {ns ms before after : List NodeId} {n : NodeId}

/-! ## Appending -/

/-- **What an append comes to.** -/
theorem append_eq (f : Forest) (head : Option NodeId) (n : NodeId) : f.append head n =
    if ¬f.Free n then .error (.alreadyLinked (f.kind n))
    else if (f.chain head).getLast? = some n then .error (.ownChain (f.kind n))
    else .ok (head.getD n, (f.chain head).getLast?.elim f (f.setNext · n)) := by
  by_cases hfree : f.Free n
  · unfold append
    rw [if_neg (not_not.mpr hfree), hfree.next, hfree.parent]
    rcases head with _ | first
    · simp
    · rcases hlast : (f.chain (some first)).getLast? with _ | last
      · simp
      · simp [eq_comm]
  · unfold append
    rw [if_pos hfree, if_pos]
    rw [Bool.or_eq_true, Option.isSome_iff_ne_none, Option.isSome_iff_ne_none]
    exact not_free_iff.mp hfree

/-- A successor is the only thing written. -/
theorem node_setNext (f : Forest) (last n m : NodeId) : (f.setNext last n).node m
    = if last = m ∧ m < f.size then { f.node m with next := some n } else f.node m :=
  f.node_modify ..

theorem append_error (h : ¬f.Free n ∨ (f.chain head).getLast? = some n) : f.append head n
    = .error (if f.Free n then .ownChain (f.kind n) else .alreadyLinked (f.kind n)) := by
  rw [append_eq]
  by_cases hfree : f.Free n
  · rw [if_neg (not_not.mpr hfree), if_pos (h.resolve_left (not_not.mpr hfree)), if_pos hfree]
  · rw [if_pos hfree, if_neg hfree]

/-- **An append that goes through writes one link**, or none where there was no chain. -/
theorem Linked.exists_append (hf : f.Linked) (hhead : ∀ m ∈ head, m < f.size) (hn : n < f.size)
    (hfree : f.Free n) (hlast : (f.chain head).getLast? ≠ some n) :
    ∃ g, f.append head n = .ok (head.getD n, g) ∧ g.size = f.size ∧
      (∀ m, g.node m = if (f.chain head).getLast? = some m then { f.node m with next := some n }
        else f.node m) ∧
      g.chain (some (head.getD n)) = f.chain head ++ [n] := by
  have happend := f.append_eq head n
  rw [if_neg (not_not.mpr hfree), if_neg hlast] at happend
  refine ⟨_, happend, (hf.append hhead hn happend).2.1, fun m => ?_,
    hf.chain_append hhead hn happend⟩
  rcases hend : (f.chain head).getLast? with _ | last
  · rfl
  · have hlt : last < f.size := hf.lt_of_mem_chain hhead (List.mem_of_getLast? hend)
    refine (f.node_setNext last n m).trans (if_congr ?_ rfl rfl)
    rw [Option.some_inj]
    exact ⟨And.left, fun heq => ⟨heq, heq ▸ hlt⟩⟩

/-! ## Joining -/

/-- Nodes that can be joined: all are free, and none comes twice. -/
structure Joinable (f : Forest) (ns : List NodeId) : Prop where
  free : ∀ n ∈ ns, f.Free n
  nodup : ns.Nodup

/-- One forest comes of another by making the nodes of a list successors of each other. -/
structure Strung (f g : Forest) (ns : List NodeId) : Prop where
  chained : g.Chained ns.head? ns
  relinked : f.Relinked g ns

theorem joinable_iff :
    f.Joinable ns ↔ (∀ n ∈ ns, f.next n = none ∧ f.parent n = none) ∧ ns.Nodup := by
  simp only [← free_iff]
  exact ⟨fun h => ⟨h.free, h.nodup⟩, fun h => ⟨h.1, h.2⟩⟩

/-- Nodes can be joined, or there is a first one that stands in the way. -/
theorem joinable_or_split (f : Forest) (ns : List NodeId) : f.Joinable ns ∨
    ∃ before n after, ns = before ++ n :: after ∧ f.Joinable before ∧
      (¬f.Free n ∨ n ∈ before) := by
  induction ns using List.reverseRecOn with
  | nil => exact .inl ⟨fun _ hn => absurd hn List.not_mem_nil, List.nodup_nil⟩
  | append_singleton ns m ih =>
    rcases ih with hns | ⟨before, n, after, rfl, hbefore, hn⟩
    · by_cases hm : f.Free m ∧ m ∉ ns
      · exact .inl ⟨List.forall_mem_append.mpr ⟨hns.free, List.forall_mem_singleton.mpr hm.1⟩,
          List.nodup_append'.mpr ⟨hns.nodup, List.nodup_singleton m,
            List.disjoint_singleton.mpr hm.2⟩⟩
      · rw [not_and_or, not_not] at hm
        exact .inr ⟨ns, m, [], rfl, hns, hm⟩
    · exact .inr ⟨before, n, after ++ [m], List.append_assoc .., hbefore, hn⟩

/-- Joining nodes and then more of them is joining them all. -/
theorem linkFrom_append {head' : Option NodeId} :
    ∀ {ns : List NodeId} {f : Forest} {head : Option NodeId},
      f.linkFrom head ns = (.ok head', g) → f.linkFrom head (ns ++ ms) = g.linkFrom head' ms
  | [], f, head, h => by
    obtain ⟨rfl, rfl⟩ : head = head' ∧ f = g := by simpa [linkFrom] using h
    rfl
  | n :: ns, f, head, h => by
    rw [linkFrom] at h
    rw [List.cons_append, linkFrom]
    split at h
    · exact linkFrom_append h
    · cases h

/-- **Nodes that can be joined are.** -/
theorem Joinable.exists_link (h : f.Joinable ns) (hns : ∀ n ∈ ns, n < f.size) :
    ∃ g, f.link ns = (.ok ns.head?, g) ∧ f.Strung g ns := by
  obtain ⟨head, g, hlink, hchained, hrelinked⟩ := Forest.exists_link h.nodup hns h.free
  obtain rfl := hchained.head_eq
  exact ⟨g, hlink, hchained, hrelinked⟩

namespace Strung

/-- The chain from the first node is the list. -/
theorem chain_eq (h : f.Strung g ns) (hns : ∀ n ∈ ns, n < f.size) : g.chain ns.head? = ns :=
  h.chained.chain_eq fun n hn => h.relinked.size ▸ hns n hn

/-- **A node that stands in the way is refused**: the last of the list for its own chain, and any
other for its links. -/
theorem append_refused (h : f.Strung g before) (hbefore : ∀ m ∈ before, m < f.size)
    (hjoinable : f.Joinable before) (hn : ¬f.Free n ∨ n ∈ before) :
    g.append before.head? n = .error
      (if before.getLast? = some n then .ownChain (f.kind n) else .alreadyLinked (f.kind n)) := by
  have hkind : g.kind n = f.kind n := congrArg Shape.kind (h.relinked.shape n)
  rw [append_eq, h.chain_eq hbefore, hkind]
  by_cases hlast : before.getLast? = some n
  · have hfree : g.Free n := ⟨h.chained.next_getLast hlast,
      (h.relinked.parent n).trans (hjoinable.free n (List.mem_of_getLast? hlast)).parent⟩
    rw [if_neg (not_not.mpr hfree), if_pos hlast, if_pos hlast]
  · have hfree : ¬g.Free n := fun hfree => by
      by_cases hmem : n ∈ before
      · exact hlast (h.chained.getLast?_eq hmem hfree.next)
      · exact hn.resolve_right hmem ⟨(h.relinked.next n hmem).symm.trans hfree.next,
          (h.relinked.parent n).symm.trans hfree.parent⟩
    rw [if_pos hfree, if_neg hlast]

end Strung

/-- **Nodes that cannot be joined are joined up to the first that stands in the way.** -/
theorem exists_link_error (hns : ∀ n ∈ ns, n < f.size) (h : ¬f.Joinable ns) :
    ∃ before n after g, ns = before ++ n :: after ∧ f.Joinable before ∧
      (¬f.Free n ∨ n ∈ before) ∧ f.Strung g before ∧
      f.link ns = (.error (if before.getLast? = some n then .ownChain (f.kind n)
        else .alreadyLinked (f.kind n)), g) := by
  obtain ⟨before, n, after, rfl, hjoinable, hn⟩ := (f.joinable_or_split ns).resolve_left h
  have hbefore : ∀ m ∈ before, m < f.size := fun m hm => hns m (List.mem_append_left _ hm)
  obtain ⟨g, hlink, hstrung⟩ := hjoinable.exists_link hbefore
  refine ⟨before, n, after, g, rfl, hjoinable, hn, hstrung, ?_⟩
  rw [link, linkFrom_append hlink, linkFrom, hstrung.append_refused hbefore hjoinable hn]

end Forest

namespace Workshop

open Forest

variable {w : Workshop} {log : List Receipt}

/-- **What appending and joining come to.**  In every workshop reached, an append is refused if and
only if the node has a successor or a parent or ends the chain it is to go on, and then nothing has
changed.  Otherwise the last node of the chain gets it for its successor, and nothing else changes.
Joining goes through if and only if all nodes are free and none comes twice, and the chain of the
answer is the list.  Otherwise the nodes before the first that stands in the way are joined, and
nothing else has changed. -/
theorem appended_and_joined (h : Reached w log) :
    (∀ head n, (∀ m ∈ head, m < w.forest.size) → n < w.forest.size →
      let last? := (w.forest.chain head).getLast?
      let refused := w.forest.next n ≠ none ∨ w.forest.parent n ≠ none ∨ last? = some n
      (refused → w.step (.append head n) = (.error
        (if w.forest.Free n then .ownChain (w.forest.kind n)
          else .alreadyLinked (w.forest.kind n)), w)) ∧
      (¬refused → ∃ g, w.step (.append head n) = (.ok (some (head.getD n)), w.withForest g) ∧
        g.size = w.forest.size ∧
        (∀ m, g.node m = if last? = some m then { w.forest.node m with next := some n }
          else w.forest.node m) ∧
        g.chain (some (head.getD n)) = w.forest.chain head ++ [n])) ∧
    ∀ ns : List NodeId, (∀ n ∈ ns, n < w.forest.size) →
      let joinable := (∀ n ∈ ns, w.forest.next n = none ∧ w.forest.parent n = none) ∧ ns.Nodup
      (joinable → ∃ g, w.step (.link ns) = (.ok ns.head?, w.withForest g) ∧
        g.chain ns.head? = ns ∧ w.forest.Strung g ns) ∧
      (¬joinable → ∃ before n after g, ns = before ++ n :: after ∧
        ((∀ m ∈ before, w.forest.next m = none ∧ w.forest.parent m = none) ∧ before.Nodup) ∧
        (w.forest.next n ≠ none ∨ w.forest.parent n ≠ none ∨ n ∈ before) ∧
        w.step (.link ns) = (.error (if before.getLast? = some n then .ownChain (w.forest.kind n)
          else .alreadyLinked (w.forest.kind n)), w.withForest g) ∧
        g.chain before.head? = before ∧ w.forest.Strung g before) := by
  have hf := h.grown.linked
  refine ⟨fun head n hhead hn => ⟨fun hrefused => ?_, fun hok => ?_⟩,
    fun ns hns => ⟨fun hjoinable => ?_, fun hnot => ?_⟩⟩
  · rw [← or_assoc, ← not_free_iff] at hrefused
    rw [step, append_error hrefused]
    rfl
  · rw [← or_assoc, ← not_free_iff, not_or, not_not] at hok
    obtain ⟨g, happend, hg⟩ := hf.exists_append hhead hn hok.1 hok.2
    refine ⟨g, ?_, hg⟩
    rw [step, happend]
    rfl
  · obtain ⟨g, hlink, hstrung⟩ := (joinable_iff.mpr hjoinable).exists_link hns
    refine ⟨g, ?_, hstrung.chain_eq hns, hstrung⟩
    rw [step, hlink]
  · obtain ⟨before, n, after, g, rfl, hjoinable, hn, hstrung, hlink⟩ :=
      exists_link_error hns (mt joinable_iff.mp hnot)
    rw [not_free_iff, or_assoc] at hn
    refine ⟨before, n, after, g, rfl, joinable_iff.mp hjoinable, hn, ?_,
      hstrung.chain_eq fun m hm => hns m (List.mem_append_left _ hm), hstrung⟩
    rw [step, hlink]

/-- Two free nodes are joined either way, the operand of a negation is refused, and joining stops
where a node comes for the second time. -/
theorem appended_and_joined_of_operand : ∃ w log, Reached w log ∧
    (∃ g, w.step (.append (some 0) 1) = (.ok (some 0), w.withForest g) ∧
      g.chain (some 0) = [0, 1]) ∧
    (∃ fault, w.step (.append none 2) = (.error fault, w)) ∧
    (∃ g, w.step (.link [1, 0]) = (.ok (some 1), w.withForest g) ∧ g.chain (some 1) = [1, 0]) ∧
    ∃ before n after fault g, [0, 1, 0] = before ++ n :: after ∧
      w.step (.link [0, 1, 0]) = (.error fault, w.withForest g) ∧
      g.chain before.head? = before := by
  have hreached := (((Reached.start.step (.construct (.var "x")) (by decide)).step
    (.construct (.var "y")) (by decide)).step (.construct (.var "z")) (by decide)).step
    (.construct (.negation 2)) (by decide)
  obtain ⟨happend, hlink⟩ := appended_and_joined hreached
  obtain ⟨g, hstep, -, -, hchain⟩ := (happend (some 0) 1 (by decide) (by decide)).2 (by decide)
  obtain ⟨g', hstep', hchain', -⟩ := (hlink [1, 0] (by decide)).1 (by decide)
  obtain ⟨before, n, after, g'', hsplit, -, -, hstep'', hchain'', -⟩ :=
    (hlink [0, 1, 0] (by decide)).2 (by decide)
  exact ⟨_, _, hreached, ⟨g, hstep, hchain.trans (by decide)⟩,
    ⟨_, (happend none 2 (by decide) (by decide)).1 (by decide)⟩, ⟨g', hstep', hchain'⟩,
    before, n, after, _, g'', hsplit, hstep'', hchain''⟩

end Workshop

end ProbeScript
