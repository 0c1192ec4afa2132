import ProbeScript.Proofs.Arena.Freed
import ProbeScript.Proofs.Dump.Rendering
import ProbeScript.Proofs.Forest.Closed

/-!
# Proofs/Workshop/Ruled — workshops reached by steps that keep to a rule

A rule says which steps are taken in which workshops.  One rule is that a list is finished before
it is handed over: nodes are appended to open chains only.  Under it all lists below nodes are
closed (`Ruled.closed`), for a construction mints one node after the other over nodes in use, with
counts that are right (`construct_keeps`), and joining nodes keeps to the rule by itself.  So counts
stay right, nodes lie below later ones, and every descent ends (`closed_lists_counted`).
-/

namespace ProbeScript

open Forest

variable {n : NodeId}

namespace Workshop

variable {w w' : Workshop}

/-- The workshops that steps over nodes in use lead to, all of them taken by a rule. -/
inductive Ruled (rule : Workshop → Step → Prop) : Workshop → Prop where
  | start : Ruled rule {}
  | step {w : Workshop} (h : Ruled rule w) (s : Step) (hs : ∀ n ∈ s.nodes, n < w.forest.size)
      (hrule : rule w s) : Ruled rule (w.step s).2
  | turn {w : Workshop} (h : Ruled rule w) (arena : Arena) : Ruled rule (w.withArena arena)

theorem Ruled.exists_reached {rule : Workshop → Step → Prop} (h : Ruled rule w) :
    ∃ log, Reached w log := by
  induction h with
  | start => exact ⟨[], .start⟩
  | step _ s hs _ ih =>
    obtain ⟨log, hlog⟩ := ih
    exact ⟨_, hlog.step s hs⟩
  | turn _ arena ih =>
    obtain ⟨log, hlog⟩ := ih
    exact ⟨log, hlog.turn arena⟩

theorem Ruled.linked {rule : Workshop → Step → Prop} (h : Ruled rule w) : w.forest.Linked := by
  obtain ⟨log, hlog⟩ := h.exists_reached
  exact hlog.grown.linked

/-! ## What a construction keeps -/

section Keeps

variable {P : Workshop → Prop}
  (hmint : ∀ {w : Workshop} (shape : Shape), P w →
    (∀ n ∈ shape.slots.map Slot.first, n < w.forest.size) → shape.Counted w.forest.chain →
      P (w.mint shape).2)

include hmint

theorem buildRecord_none_keeps (h : P w) : P (w.buildRecord none).2 := by
  have hfield : P (w.mint (.str "")).2 :=
    hmint _ h (fun _ hn => absurd hn List.not_mem_nil) trivial
  have hlt : (w.mint (.str "")).1 < (w.mint (.str "")).2.forest.size := by simp
  have hcounted : 1 = ((w.mint (.str "")).2.forest.chain (some (w.mint (.str "")).1)).length := by
    rw [fst_mint, chain_mint_self]
    rfl
  exact hmint (.record (w.mint (.str "")).1 1) hfield
    (fun n hn => List.mem_singleton.mp hn ▸ hlt) hcounted

/-- **A construction keeps what minting nodes with right counts keeps**, and marking a call. -/
theorem construct_keeps
    (hmark : ∀ {w : Workshop} {n : NodeId} (module : String), P w → n < w.forest.size →
      P (w.withForest (w.forest.setModule n module)))
    (h : P w) {c : Construct} (hlt : ∀ n ∈ c.nodes, n < w.forest.size)
    (hw : w.construct c = .ok (n, w')) : P w' := by
  -- All but three sorts of construction mint one node over the nodes mentioned.
  have hone : ∀ {shape : Shape}, w.mint shape = (n, w') → shape.slots.map Slot.first = c.nodes →
      shape.Counted w.forest.chain → P w' := fun hw hnodes hcounted => by
    have hminted := hmint _ h (hnodes ▸ hlt) hcounted
    rwa [hw] at hminted
  cases c with
  | int literal =>
    obtain ⟨k, -, hk⟩ := exists_of_map_eq_ok hw
    exact hone hk rfl trivial
  | record args =>
    cases args with
    | none =>
      obtain rfl : (w.buildRecord none).2 = w' := congrArg Prod.snd (Except.ok.inj hw)
      exact buildRecord_none_keeps hmint h
    | some head => exact hone (show w.mint (.record head _) = _ from Except.ok.inj hw) rfl rfl
  | map name key =>
    cases key with
    | none =>
      obtain rfl : (w.buildMap name none).2 = w' := congrArg Prod.snd (Except.ok.inj hw)
      have hkey : (w.buildRecord none).1 < (w.buildRecord none).2.forest.size := by
        rw [fst_buildRecord_none, size_buildRecord_none]
        exact Nat.lt_succ_self _
      exact hmint (.map name (w.buildRecord none).1) (buildRecord_none_keeps hmint h)
        (fun n hn => List.mem_singleton.mp hn ▸ hkey) trivial
    | some key => exact hone (show w.mint (.map name key) = _ from Except.ok.inj hw) rfl trivial
  | method target invocation =>
    obtain rfl : (w.buildMethod target invocation).2 = w' := congrArg Prod.snd (Except.ok.inj hw)
    have hmarked := hmark "method" h (hlt invocation (by simp [Construct.nodes]))
    refine hmint (.method target invocation) hmarked (fun n hn => ?_) trivial
    exact Nat.lt_of_lt_of_eq (hlt n hn) (size_setModule ..).symm
  | assign target value =>
    exact hone (Except.ok.inj hw) (congrArg _ (first_ones value)) trivial
  | call module function args => exact hone (Except.ok.inj hw) (first_chains args) rfl
  | ifElse condition thenHead elseHead =>
    refine hone (Except.ok.inj hw) ?_ rfl
    rw [Shape.slots, List.map_cons, List.map_append, first_chains, first_chains]
    rfl
  | unroll count statements =>
    obtain ⟨k, -, hk⟩ := exists_of_map_eq_ok hw
    exact hone hk (first_chains statements) trivial
  | probe spec predicate statements =>
    refine hone (Except.ok.inj hw) ?_ trivial
    rw [Shape.slots, List.map_append, first_ones, first_chains]
    rfl
  | script probes => exact hone (Except.ok.inj hw) (first_chains probes) trivial
  | str | var | negation | binop | breakLoop | continueLoop | returnProbe | stackValue =>
    exact hone (Except.ok.inj hw) rfl trivial

end Keeps

/-! ## Finishing lists before they are handed over -/

/-- The rule to finish a list before it is handed over: where an append goes through, none of the
nodes of the chain has a parent. -/
def FinishesLists (w : Workshop) : Step → Prop
  | .append head n => (∃ joined, w.forest.append head n = .ok joined) → w.forest.Open head
  | _ => True

theorem closed_construct (hf : w.forest.Linked) (h : w.forest.Closed) {c : Construct}
    (hlt : ∀ n ∈ c.nodes, n < w.forest.size) (hw : w.construct c = .ok (n, w')) :
    w'.forest.Closed := by
  refine (construct_keeps (P := fun w => w.forest.Linked ∧ w.forest.Closed) ?_ ?_ ⟨hf, h⟩ hlt hw).2
  · rintro w shape ⟨hf, h⟩ hlt hcounted
    have hslots : ∀ s ∈ shape.slots, s.first < w.forest.size := fun s hs =>
      hlt s.first (List.mem_map_of_mem hs)
    rw [forest_mint]
    exact ⟨hf.add hslots, h.add hf hslots hcounted⟩
  · rintro w n module ⟨hf, h⟩ hn
    exact ⟨hf.setModule n module, h.setModule hf hn module⟩

/-- **A step that finishes lists first leaves them closed.** -/
theorem closed_step (hf : w.forest.Linked) (h : w.forest.Closed) {s : Step}
    (hs : ∀ n ∈ s.nodes, n < w.forest.size) (hrule : w.FinishesLists s) :
    (w.step s).2.forest.Closed := by
  obtain ⟨c, n, w', rfl, hw, hstep⟩ | ⟨head, n, first, g, rfl, hw, hstep⟩ | ⟨ns, rfl, hstep⟩ |
    ⟨-, arena, hstep⟩ := w.step_cases s <;> rw [hstep]
  · exact closed_construct hf h hs hw
  · obtain ⟨hhead, hn⟩ := Step.forall_nodes_append.mp hs
    exact (h.append hf hhead hn (hrule ⟨_, hw⟩) hw).1
  · exact h.link hf hs
  · exact h

/-- **Where lists are finished first, they are closed in every workshop reached.** -/
theorem Ruled.closed (h : Ruled FinishesLists w) : w.forest.Closed := by
  induction h with
  | start => exact .empty
  | step hw s hs hrule ih => exact closed_step hw.linked ih hs hrule
  | turn _ arena ih => exact ih

end Workshop

/-! ## Descents that end -/

theorem Forest.Closed.grounded {f : Forest} (h : f.Closed) (n : NodeId) : f.Grounded n := by
  induction n using Nat.strong_induction_on with
  | _ n ih => exact .intro fun c hc => ih c (h.lt hc)

/-- The fault of a diagram is that of a line, never that the descent does not end. -/
theorem Store.diagram_ne_endless (s : Store) (h : s.forest.Grounded n) :
    s.diagram n ≠ .error .endlessDescent := by
  intro hdiagram
  rw [diagram] at hdiagram
  cases hwalk : s.forest.walk n (some (Drawing.enter s.forest s.ledger)) (some Drawing.leave)
      ({} : Drawing) with
  | mk outcome drawing =>
    rw [hwalk] at hdiagram
    obtain ⟨fault, rfl⟩ | ⟨status, rfl⟩ : (∃ fault, outcome = .error fault) ∨
        ∃ status, outcome = .ok status := by cases outcome <;> simp
    · obtain rfl : fault = .endlessDescent := Except.error.inj hdiagram
      obtain ⟨e, t, he⟩ := h.exists_raised _ _ (congrArg Prod.fst hwalk)
      cases e with
      | leave m => cases he
      | enter m =>
        rw [Event.run, Visitor.run, Drawing.enter, Ledger.line] at he
        cases hshape : s.forest.shape m <;> simp [hshape, Shape.summary, Except.map] at he
    · cases hdiagram

theorem Arena.free_ne_endless (a : Arena) {f : Forest} (h : f.Grounded n) :
    (a.free f n).1 ≠ .error .endlessDescent := by
  rcases a.free_outcome h with ⟨a', -, hfree⟩ | ⟨before, m, after, a', -, -, -, hfree⟩
  · simp [hfree]
  · simp [hfree]

namespace Workshop

variable {w : Workshop}

/-- **Where lists are finished before they are handed over, what was counted stays right, and nodes
lie below later ones only.**  So a walk from any node runs through finitely many events, and neither
a diagram nor freeing fails for want of an end. -/
theorem closed_lists_counted (h : Ruled FinishesLists w) :
    (∀ n module function args argCount, w.forest.shape n = .call module function args argCount →
      argCount = (w.forest.chain args).length) ∧
    (∀ n args argCount, w.forest.shape n = .record args argCount →
      argCount = (w.forest.chain (some args)).length) ∧
    (∀ n condition thenHead thenLast elseHead,
      w.forest.shape n = .ifElse condition thenHead thenLast elseHead →
        thenLast = (w.forest.chain thenHead).getLast? ∧ (thenLast = none ↔ thenHead = none)) ∧
    (∀ n, ∀ m ∈ w.forest.children n, m < n) ∧
    ∀ n, w.forest.Grounded n ∧
      (∀ (ε σ : Type) [Raises ε] (pre post : Option (Visitor ε σ)) (s : σ),
        w.forest.walk n pre post s = runEvents pre post (w.forest.euler n) s) ∧
      w.toStore.diagram n ≠ .error .endlessDescent ∧
      ∀ a : Arena, (a.free w.forest n).1 ≠ .error .endlessDescent := by
  have hclosed := h.closed
  refine ⟨fun n module function args argCount hn => ?_, fun n args argCount hn => ?_,
    fun n condition thenHead thenLast elseHead hn => ?_, fun n m hm => hclosed.lt hm, fun n => ?_⟩
  · have hcounted := hclosed.counted n
    rwa [hn] at hcounted
  · have hcounted := hclosed.counted n
    rwa [hn] at hcounted
  · have hlast := hclosed.counted n
    rw [hn] at hlast
    change thenLast = (w.forest.chain thenHead).getLast? at hlast
    -- A chain that begins with a node is not empty.
    have hhead : ∀ m ∈ thenHead, m < w.forest.size := fun m hm =>
      h.linked.slot_lt_size (n := n) (s := .chain m)
        (by simp [hn, Shape.slots, Option.mem_def.mp hm])
    refine ⟨hlast, ?_⟩
    rw [hlast, List.getLast?_eq_none_iff, ← List.head?_eq_none_iff,
      ← (h.linked.chained hhead).head_eq]
  · have hground := hclosed.grounded n
    exact ⟨hground, fun _ _ _ pre post s => hground.walk_eq_runEvents pre post s,
      w.toStore.diagram_ne_endless hground, fun a => a.free_ne_endless hground⟩

/-- Two linked nodes and a third appended to them, handed to a call, and from the second on to a
branch as well. -/
theorem closed_lists_counted_of_shared : ∃ w, Ruled FinishesLists w ∧
    w.forest.shape 3 = .call none "f" (some 0) 3 ∧ 3 = (w.forest.chain (some 0)).length ∧
    w.forest.shape 4 = .ifElse 3 (some 1) (some 2) none ∧
    some 2 = (w.forest.chain (some 1)).getLast? ∧ w.forest.Grounded 4 := by
  have hpair := (((.start : Ruled FinishesLists {}).step
    (.construct (.var "x")) (by decide) trivial).step
    (.construct (.var "y")) (by decide) trivial).step (.link [0, 1]) (by decide) trivial
  have hchain := (hpair.step (.construct (.var "z")) (by decide) trivial).step
    (.append (some 0) 2) (by decide) fun _ => by decide
  have hcall := hchain.step (.construct (.call none "f" (some 0))) (by decide) trivial
  have hbranch := hcall.step (.construct (.ifElse 3 (some 1) none)) (by decide) trivial
  -- The node at the end has parents, so it is refused wherever it is appended.
  have hrefused := hbranch.step (.append none 2) (by decide) fun _ => by decide
  obtain ⟨hcounts, -, hlasts, -, hends⟩ := closed_lists_counted hrefused
  exact ⟨_, hrefused, by decide, hcounts 3 none "f" (some 0) 3 (by decide), by decide,
    (hlasts 4 3 (some 1) (some 2) none (by decide)).1, (hends 4).1⟩

end Workshop

end ProbeScript
