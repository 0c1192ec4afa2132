import ProbeScript.Proofs.Forest.Appended
import ProbeScript.Workshop.Step

/-!
# Proofs/Workshop/Reached — workshops that steps lead to

Steps are taken from an empty workshop on, each over nodes built before, and another arena may take
over between them.  Nothing else is asked of them: a step may fail, nodes may be built over twice,
and chains may be handed over from the middle or go on after they were.  The forest of a workshop
reached is one that has grown, with the receipts of the constructions for its log
(`Reached.grown`), so a parent is the latest receiver of its child and has it right below
(`parent_is_latest_receiver`).
-/

namespace ProbeScript

/-! ## What a construction is given -/

namespace Construct

/-- The nodes a construction mentions; a chain is mentioned by its first node. -/
def nodes : Construct → List NodeId
  | record args => args.toList
  | map _ key => key.toList
  | negation operand => [operand]
  | binop left _ right => [left, right]
  | assign target value => target :: value.toList
  | method target invocation => [target, invocation]
  | call _ _ args => args.toList
  | ifElse condition thenHead elseHead => condition :: (thenHead.toList ++ elseHead.toList)
  | unroll _ statements => statements.toList
  | probe _ predicate statements => predicate.toList ++ statements.toList
  | script probes => probes.toList
  | str _ | int _ | var _ | breakLoop | continueLoop | returnProbe | stackValue => []

/-- The nodes a construction receives, those of a chain from the node given to its present end. -/
def given (f : Forest) : Construct → List NodeId
  | record args => f.chain args
  | map _ key => key.toList
  | negation operand => [operand]
  | binop left _ right => [left, right]
  | assign target value => target :: value.toList
  | method target invocation => [target, invocation]
  | call _ _ args => f.chain args
  | ifElse condition thenHead elseHead => condition :: (f.chain thenHead ++ f.chain elseHead)
  | unroll _ statements => f.chain statements
  | probe _ predicate statements => predicate.toList ++ f.chain statements
  | script probes => f.chain probes
  | str _ | int _ | var _ | breakLoop | continueLoop | returnProbe | stackValue => []

/-- The receipts of the nodes a construction builds, the latest first.  A record without fields
receives a string built for it, and a map without key such a record. -/
def receipts (f : Forest) : Construct → List Receipt
  | record none => [⟨f.size + 1, [f.size]⟩, ⟨f.size, []⟩]
  | map _ none => [⟨f.size + 2, [f.size + 1]⟩, ⟨f.size + 1, [f.size]⟩, ⟨f.size, []⟩]
  | c => [⟨f.size, c.given f⟩]

end Construct

namespace Step

/-- The nodes a step mentions. -/
def nodes : Step → List NodeId
  | construct c => c.nodes
  | append head n => head.toList ++ [n]
  | link ns => ns
  | adopt n => [n]
  | release n => [n]

/-- The receipts of the nodes a step builds; none where it meets a fault. -/
def receipts (w : Workshop) : Step → List Receipt
  | construct c =>
    match w.construct c with
    | .ok _ => c.receipts w.forest
    | .error _ => []
  | _ => []

theorem forall_nodes_append {head : Option NodeId} {n : NodeId} {P : NodeId → Prop} :
    (∀ m ∈ (append head n).nodes, P m) ↔ (∀ m ∈ head, P m) ∧ P n := by
  rw [nodes, List.forall_mem_append, List.forall_mem_singleton]
  exact and_congr_left' (by cases head <;> simp)

end Step

namespace Workshop

/-- The workshops that steps over nodes in use lead to, with the receipts of all nodes built, the
latest first. -/
inductive Reached : Workshop → List Receipt → Prop where
  | start : Reached {} []
  | step {w : Workshop} {log : List Receipt} (h : Reached w log) (s : Step)
      (hs : ∀ n ∈ s.nodes, n < w.forest.size) : Reached (w.step s).2 (s.receipts w ++ log)
  | turn {w : Workshop} {log : List Receipt} (h : Reached w log) (arena : Arena) :
      Reached (w.withArena arena) log

end Workshop

/-! ## What is in the places of a shape -/

namespace Forest

variable (f : Forest)

theorem fill_chains (head : Option NodeId) :
    (head.map Slot.chain).toList.flatMap f.fill = f.chain head := by
  cases head with
  | none => exact f.chain_none.symm
  | some n => exact List.append_nil _

theorem fill_ones (child : Option NodeId) :
    (child.map Slot.one).toList.flatMap f.fill = child.toList := by
  cases child <;> rfl

end Forest

theorem first_chains (head : Option NodeId) :
    (head.map Slot.chain).toList.map Slot.first = head.toList := by
  cases head <;> rfl

theorem first_ones (child : Option NodeId) :
    (child.map Slot.one).toList.map Slot.first = child.toList := by
  cases child <;> rfl

namespace Workshop

open Forest

variable {w w' : Workshop} {log : List Receipt} {n : NodeId}

/-! ## A step makes the forest grow -/

theorem exists_of_map_eq_ok {ε α β : Type} {x : Except ε α} {g : α → β} {b : β}
    (h : x.map g = .ok b) : ∃ a, x = .ok a ∧ g a = b := by
  cases x with
  | ok a => exact ⟨a, rfl, Except.ok.inj h⟩
  | error e => nomatch h

@[simp] theorem forest_mint (w : Workshop) (shape : Shape) :
    (w.mint shape).2.forest = (w.forest.add shape).2 := by
  cases h : firstRecord? shape <;> simp only [mint, add_eq, h]

@[simp] theorem fst_mint (w : Workshop) (shape : Shape) : (w.mint shape).1 = w.forest.size := by
  cases h : firstRecord? shape <;> simp only [mint, add_eq, h]

/-- The node minted is logged with the nodes in the places of its shape. -/
theorem grown_mint (h : Grown w.forest log) (shape : Shape)
    (hlt : ∀ n ∈ shape.slots.map Slot.first, n < w.forest.size) :
    Grown (w.mint shape).2.forest (⟨w.forest.size, shape.slots.flatMap w.forest.fill⟩ :: log) := by
  rw [forest_mint]
  exact .add shape h fun s hs => hlt s.first (List.mem_map_of_mem hs)

/-- A construction that mints one node, over the nodes it is given. -/
theorem grown_of_mint (h : Grown w.forest log) {c : Construct} {shape : Shape}
    (hw : w.mint shape = (n, w')) (hlt : ∀ n ∈ c.nodes, n < w.forest.size)
    (hnodes : shape.slots.map Slot.first = c.nodes)
    (hgiven : shape.slots.flatMap w.forest.fill = c.given w.forest) :
    Grown w'.forest (⟨w.forest.size, c.given w.forest⟩ :: log) := by
  have hgrown := grown_mint h shape (hnodes ▸ hlt)
  rwa [hw, hgiven] at hgrown

/-- A node just minted is a chain of its own. -/
theorem chain_mint_self (w : Workshop) (shape : Shape) :
    (w.mint shape).2.forest.chain (some w.forest.size) = [w.forest.size] := by
  have hnext : (w.mint shape).2.forest.next w.forest.size = none := by
    rw [forest_mint, next_add, Forest.next, w.forest.node_eq_default (Nat.le_refl _)]
    rfl
  refine (Chained.single hnext).chain_eq fun n hn => ?_
  rw [List.mem_singleton.mp hn, forest_mint, size_add]
  exact Nat.lt_succ_self _

/-- A record without fields is built over the string built for it. -/
theorem grown_buildRecord_none (h : Grown w.forest log) :
    Grown (w.buildRecord none).2.forest
      (⟨w.forest.size + 1, [w.forest.size]⟩ :: ⟨w.forest.size, []⟩ :: log) := by
  have hfield : Grown (w.mint (.str "")).2.forest (⟨w.forest.size, []⟩ :: log) :=
    grown_mint h _ fun _ hn => absurd hn List.not_mem_nil
  have hsize : (w.mint (.str "")).2.forest.size = w.forest.size + 1 := by simp
  have hlt : ∀ n ∈ [w.forest.size], n < (w.mint (.str "")).2.forest.size := fun n hn => by
    rw [List.mem_singleton.mp hn, hsize]
    exact Nat.lt_succ_self _
  have hrecord := grown_mint hfield (.record w.forest.size 1) hlt
  rw [hsize] at hrecord
  rwa [show (Shape.record w.forest.size 1).slots.flatMap (w.mint (.str "")).2.forest.fill
    = [w.forest.size] from (List.append_nil _).trans (w.chain_mint_self _)] at hrecord

theorem size_buildRecord_none (w : Workshop) :
    (w.buildRecord none).2.forest.size = w.forest.size + 2 := by
  change ((w.mint (.str "")).2.mint _).2.forest.size = _
  simp

theorem fst_buildRecord_none (w : Workshop) : (w.buildRecord none).1 = w.forest.size + 1 := by
  change ((w.mint (.str "")).2.mint _).1 = _
  simp

/-- A map without key is built over the record built for it. -/
theorem grown_buildMap_none (h : Grown w.forest log) (name : String) :
    Grown (w.buildMap name none).2.forest
      (⟨w.forest.size + 2, [w.forest.size + 1]⟩ :: ⟨w.forest.size + 1, [w.forest.size]⟩ ::
        ⟨w.forest.size, []⟩ :: log) := by
  have hkey := w.fst_buildRecord_none
  have hsize := w.size_buildRecord_none
  have hgrown := grown_mint (grown_buildRecord_none h)
    (.map name (w.buildRecord none).1) fun n hn => by
      rw [List.mem_singleton.mp hn, hsize]
      change (w.buildRecord none).1 < _
      rw [hkey]
      exact Nat.lt_succ_self _
  rw [hsize, show (Shape.map name (w.buildRecord none).1).slots.flatMap
    (w.buildRecord none).2.forest.fill = [w.forest.size + 1] from congrArg (fun k => [k]) hkey]
    at hgrown
  exact hgrown

/-- A method is built over its two parts, one of which is marked before. -/
theorem grown_buildMethod (h : Grown w.forest log) {target invocation : NodeId}
    (hlt : ∀ n ∈ [target, invocation], n < w.forest.size) :
    Grown (w.buildMethod target invocation).2.forest
      (⟨w.forest.size, [target, invocation]⟩ :: log) := by
  have hmarked := grown_mint (w := { w with forest := w.forest.setModule invocation "method" })
    (h.setModule invocation "method")
    (.method target invocation) (by rw [size_setModule]; exact hlt)
  rwa [size_setModule] at hmarked

/-- **A construction makes the forest grow by what its receipts say.** -/
theorem grown_construct (h : Grown w.forest log) {c : Construct}
    (hlt : ∀ n ∈ c.nodes, n < w.forest.size) (hw : w.construct c = .ok (n, w')) :
    Grown w'.forest (c.receipts w.forest ++ log) := by
  cases c with
  | str value => exact grown_of_mint h (Except.ok.inj hw) hlt rfl rfl
  | int literal =>
    obtain ⟨k, hk⟩ := exists_of_map_eq_ok hw
    exact grown_of_mint (c := .int literal) h hk.2 hlt rfl rfl
  | record args =>
    cases args with
    | none =>
      obtain rfl : (w.buildRecord none).2 = w' := congrArg Prod.snd (Except.ok.inj hw)
      exact grown_buildRecord_none h
    | some head =>
      exact grown_of_mint (c := .record (some head)) h
        (show w.mint (.record head _) = _ from Except.ok.inj hw) hlt rfl (List.append_nil _)
  | map name key =>
    cases key with
    | none =>
      obtain rfl : (w.buildMap name none).2 = w' := congrArg Prod.snd (Except.ok.inj hw)
      exact grown_buildMap_none h name
    | some key =>
      exact grown_of_mint (c := .map name (some key)) h
        (show w.mint (.map name key) = _ from Except.ok.inj hw) hlt rfl rfl
  | var name => exact grown_of_mint h (Except.ok.inj hw) hlt rfl rfl
  | negation operand => exact grown_of_mint h (Except.ok.inj hw) hlt rfl rfl
  | binop left operator right => exact grown_of_mint h (Except.ok.inj hw) hlt rfl rfl
  | assign target value =>
    exact grown_of_mint h (Except.ok.inj hw) hlt (congrArg _ (first_ones value))
      (congrArg _ (w.forest.fill_ones value))
  | method target invocation =>
    obtain rfl : (w.buildMethod target invocation).2 = w' :=
      congrArg Prod.snd (Except.ok.inj hw)
    exact grown_buildMethod h hlt
  | call module function args =>
    exact grown_of_mint h (Except.ok.inj hw) hlt (first_chains args) (w.forest.fill_chains args)
  | ifElse condition thenHead elseHead =>
    refine grown_of_mint h (Except.ok.inj hw) hlt ?_ ?_
    · rw [Shape.slots, List.map_cons, List.map_append, first_chains, first_chains]
      rfl
    · rw [Shape.slots, List.flatMap_cons, List.flatMap_append, fill_chains, fill_chains]
      rfl
  | unroll count statements =>
    obtain ⟨k, hk⟩ := exists_of_map_eq_ok hw
    exact grown_of_mint (c := .unroll count statements) h hk.2 hlt (first_chains statements)
      (w.forest.fill_chains statements)
  | breakLoop => exact grown_of_mint h (Except.ok.inj hw) hlt rfl rfl
  | continueLoop => exact grown_of_mint h (Except.ok.inj hw) hlt rfl rfl
  | returnProbe => exact grown_of_mint h (Except.ok.inj hw) hlt rfl rfl
  | probe spec predicate statements =>
    refine grown_of_mint h (Except.ok.inj hw) hlt ?_ ?_
    · rw [Shape.slots, List.map_append, first_ones, first_chains]
      rfl
    · rw [Shape.slots, List.flatMap_append, fill_ones, fill_chains]
      rfl
  | script probes =>
    exact grown_of_mint h (Except.ok.inj hw) hlt (first_chains probes) (w.forest.fill_chains probes)
  | stackValue => exact grown_of_mint h (Except.ok.inj hw) hlt rfl rfl

/-- An append makes the forest grow by at most one successor. -/
theorem grown_append {f g : Forest} (h : Grown f log) {head : Option NodeId} {first : NodeId}
    (hhead : ∀ m ∈ head, m < f.size) (hn : n < f.size) (hw : f.append head n = .ok (first, g)) :
    Grown g log := by
  obtain ⟨-, -, ⟨-, -, rfl⟩ | ⟨last, -, -, hfollow, rfl⟩⟩ := h.linked.append_ok hhead hn hw
  · exact h
  · exact .setNext h hfollow

theorem grown_link {ns : List NodeId} {f : Forest} (h : Grown f log) (hns : ∀ n ∈ ns, n < f.size) :
    Grown (f.link ns).2 log := by
  obtain ⟨-, hlinked⟩ := Linked.linkFrom_keeps (P := fun f _ => Grown f log) ns
    (fun _ hhead _ hn happend h => grown_append h hhead hn happend) h.linked
    (fun _ hm => absurd hm (Option.not_mem_none _)) hns h
  exact hlinked

/-- **What a step does**: it carries out a construction, it appends a node, it joins nodes as far as
that goes, or it changes the arena at most. -/
theorem step_cases (w : Workshop) (s : Step) :
    (∃ c n w', s = .construct c ∧ w.construct c = .ok (n, w') ∧ (w.step s).2 = w') ∨
    (∃ head n first g, s = .append head n ∧ w.forest.append head n = .ok (first, g) ∧
      (w.step s).2 = w.withForest g) ∨
    (∃ ns, s = .link ns ∧ (w.step s).2 = w.withForest (w.forest.link ns).2) ∨
    s.receipts w = [] ∧ ∃ arena, (w.step s).2 = w.withArena arena := by
  -- Where a step meets a fault the arena stays as well.
  cases s with
  | construct c =>
    rw [step, Step.receipts]
    cases hw : w.construct c with
    | ok built => exact .inl ⟨c, _, _, rfl, hw, rfl⟩
    | error fault => exact .inr (.inr (.inr ⟨rfl, w.arena, rfl⟩))
  | append head n =>
    rw [step]
    cases hw : w.forest.append head n with
    | ok joined => exact .inr (.inl ⟨head, n, _, _, rfl, hw, rfl⟩)
    | error fault => exact .inr (.inr (.inr ⟨rfl, w.arena, rfl⟩))
  | link ns => exact .inr (.inr (.inl ⟨ns, rfl, rfl⟩))
  | adopt n =>
    rw [step]
    cases w.arena.adopt w.forest w.ledger n <;> exact .inr (.inr (.inr ⟨rfl, _, rfl⟩))
  | release n =>
    rw [step]
    cases w.arena.release w.forest n <;> exact .inr (.inr (.inr ⟨rfl, _, rfl⟩))

/-- **A step makes the forest grow by what its receipts say.** -/
theorem grown_step (h : Grown w.forest log) {s : Step} (hs : ∀ n ∈ s.nodes, n < w.forest.size) :
    Grown (w.step s).2.forest (s.receipts w ++ log) := by
  obtain ⟨c, n, w', rfl, hw, hstep⟩ | ⟨head, n, first, g, rfl, hw, hstep⟩ | ⟨ns, rfl, hstep⟩ |
    ⟨hnone, arena, hstep⟩ := w.step_cases s <;> rw [hstep]
  · rw [Step.receipts, hw]
    exact grown_construct h hs hw
  · obtain ⟨hhead, hn⟩ := Step.forall_nodes_append.mp hs
    exact grown_append h hhead hn hw
  · exact grown_link h hs
  · rw [hnone]
    exact h

/-- **The forest of a workshop reached has grown, and the receipts are its log.** -/
theorem Reached.grown (h : Reached w log) : Grown w.forest log := by
  induction h with
  | start => exact .empty
  | step _ s hs ih => exact grown_step ih hs
  | turn _ arena ih => exact ih

/-! ## Parents -/

/-- **A node lies right below its parent, which is the latest of the nodes that received it.** -/
theorem parent_is_latest_receiver (h : Reached w log) {n p : NodeId}
    (hp : w.forest.parent n = some p) :
    n ∈ w.forest.children p ∧
      ∃ before r after, log = before ++ r :: after ∧ r.node = p ∧ n ∈ r.received ∧
        ∀ later ∈ before, n ∉ later.received := by
  rw [h.grown.parent_eq, lastReceiver, Option.map_eq_some_iff] at hp
  obtain ⟨r, hr, rfl⟩ := hp
  obtain ⟨hreceived, before, after, rfl, hlater⟩ := List.find?_eq_some_iff_append.mp hr
  have hn : n ∈ r.received := of_decide_eq_true hreceived
  have hmem : r ∈ before ++ r :: after := List.mem_append_right _ List.mem_cons_self
  refine ⟨h.grown.mem_children r hmem n hn, before, r, after, rfl, rfl, hn, fun later hl => ?_⟩
  simpa using hlater later hl

/-- The second of two linked nodes, received by a script and then, from the middle of a chain that
has grown in between, by a call. -/
theorem parent_is_latest_receiver_of_shared : ∃ w log, Reached w log ∧
    w.forest.parent 1 = some 4 ∧ 1 ∈ w.forest.children 4 ∧
      ∃ before r after, log = before ++ r :: after ∧ r.node = 4 ∧ 1 ∈ r.received ∧
        ∀ later ∈ before, 1 ∉ later.received := by
  have hpair := ((Reached.start.step (.construct (.var "x")) (by decide)).step
    (.construct (.var "y")) (by decide)).step (.link [0, 1]) (by decide)
  have hscript := hpair.step (.construct (.script (some 0))) (by decide)
  have hgrown := (hscript.step (.construct (.var "z")) (by decide)).step
    (.append (some 0) 3) (by decide)
  -- The node linked already is refused, which changes nothing.
  have hrefused := hgrown.step (.append none 1) (by decide)
  have hcall := hrefused.step (.construct (.call none "f" (some 1))) (by decide)
  exact ⟨_, _, hcall, by decide, parent_is_latest_receiver hcall (p := 4) (by decide)⟩

end Workshop

end ProbeScript
