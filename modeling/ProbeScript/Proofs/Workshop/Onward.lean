import ProbeScript.Proofs.Forest.Ended
import ProbeScript.Proofs.Forest.Prolonged
import ProbeScript.Proofs.Workshop.Minted

/-!
# Proofs/Workshop/Onward — what later steps leave alone

One workshop leads to another by any steps over nodes in use.  On the way every forest prolongs the
one before (`Leads.prolongs`) and following links ends in each.  A receipt is honoured if the list
of a call or record still begins with what the receipt says, with the number of arguments for its
length; construction issues honoured receipts (`honoured_construct`), and prolonging keeps them
(`Receipt.Honoured.prolong`).  So whatever is done next, chains grow at their end only
(`chains_only_grow`).
-/

namespace ProbeScript

open Forest

namespace Shape

variable {shape : Shape} {args : Option NodeId} {argCount : Nat}

/-- The list of arguments of a call or a record, with how many it had at construction. -/
def argList? : Shape → Option (Option NodeId × Nat)
  | call _ _ args argCount => some (args, argCount)
  | record args argCount => some (some args, argCount)
  | _ => none

theorem argList?_unmarked (shape : Shape) : shape.unmarked.argList? = shape.argList? := by
  cases shape <;> rfl

/-- The list of arguments is in a place of its own. -/
theorem chain_mem_slots (h : shape.argList? = some (args, argCount)) :
    ∀ n ∈ args, .chain n ∈ shape.slots := by
  intro n hn
  cases shape with
  | call module function head count =>
    obtain ⟨rfl, -⟩ := Prod.mk.inj (Option.some.inj h)
    obtain rfl := Option.mem_def.mp hn
    exact List.mem_singleton_self _
  | record head count =>
    obtain ⟨rfl, -⟩ := Prod.mk.inj (Option.some.inj h)
    obtain rfl := Option.some.inj hn
    exact List.mem_singleton_self _
  | _ => cases h

end Shape

/-! ## Receipts -/

/-- The list of a call or record begins with what its receipt says, and that many arguments were
counted. -/
def Receipt.Honoured (f : Forest) (r : Receipt) : Prop :=
  ∀ args argCount, (f.shape r.node).argList? = some (args, argCount) →
    r.received <+: f.chain args ∧ r.received.length = argCount

/-- **Receipts stay honoured while a forest is prolonged.** -/
theorem Receipt.Honoured.prolong {f g : Forest} {r : Receipt} (h : r.Honoured f)
    (hgf : g.Prolongs f) (hf : f.Linked) (hg : g.Linked) (hr : r.node < f.size) :
    r.Honoured g := by
  intro args argCount hargs
  rw [← Shape.argList?_unmarked, hgf.shape _ hr, Shape.argList?_unmarked] at hargs
  obtain ⟨hreceived, hlength⟩ := h args argCount hargs
  have hhead : ∀ n ∈ args, n < f.size := fun n hn =>
    hf.slot_lt_size (Shape.chain_mem_slots hargs n hn)
  exact ⟨hreceived.trans (hgf.prefix_chain hf hg hhead), hlength⟩

/-- Every node in use has a receipt. -/
theorem Forest.Grown.exists_receipt {f : Forest} {log : List Receipt} (h : Grown f log) :
    ∀ n < f.size, ∃ r ∈ log, r.node = n := by
  induction h with
  | empty => exact fun n hn => absurd hn (Nat.not_lt_zero n)
  | add shape _ _ ih =>
    intro n hn
    rw [size_add, Nat.lt_succ_iff_lt_or_eq] at hn
    rcases hn with hn | rfl
    · obtain ⟨r, hr, hrn⟩ := ih n hn
      exact ⟨r, List.mem_cons_of_mem _ hr, hrn⟩
    · exact ⟨_, List.mem_cons_self, rfl⟩
  | setNext _ _ ih => simpa only [size_setNext] using ih
  | setModule _ _ _ ih => simpa only [size_setModule] using ih

namespace Workshop

variable {w w' w'' : Workshop} {log : List Receipt} {ns : List NodeId} {n : NodeId}

/-! ## Workshops that lead to others -/

/-- The workshops that steps over nodes in use lead to from a given one. -/
inductive Leads (w : Workshop) : Workshop → Prop where
  | refl : Leads w w
  | step {w' : Workshop} (h : Leads w w') (s : Step) (hs : ∀ n ∈ s.nodes, n < w'.forest.size) :
      Leads w (w'.step s).2
  | turn {w' : Workshop} (h : Leads w w') (arena : Arena) : Leads w (w'.withArena arena)

theorem Mints.prolongs (h : w.Mints ns w') : w'.forest.Prolongs w.forest := by
  induction h with
  | start => exact .refl _
  | mark _ n module ih => exact ih.trans (.setModule _ n module)
  | @mint _ w' _ shape ih =>
    rw [forest_mint]
    exact ih.trans (.add w'.forest shape)

/-- **A step prolongs the forest**, or leaves it alone. -/
theorem prolongs_step (hf : w.forest.Linked) {s : Step} (hs : ∀ n ∈ s.nodes, n < w.forest.size) :
    (w.step s).2.forest.Prolongs w.forest := by
  obtain ⟨c, n, w', rfl, hw, hstep⟩ | ⟨head, n, first, g, rfl, hw, hstep⟩ | ⟨ns, rfl, hstep⟩ |
    ⟨-, arena, hstep⟩ := w.step_cases s <;> rw [hstep]
  · exact (mints_of_construct hw).prolongs
  · obtain ⟨hhead, hn⟩ := Step.forall_nodes_append.mp hs
    exact .append hf hhead hn hw
  · exact .link hf hs
  · exact .refl _

theorem Leads.exists_reached (hw : w.Leads w') (h : Reached w log) :
    ∃ log', Reached w' (log' ++ log) := by
  induction hw with
  | refl => exact ⟨[], h⟩
  | step _ s hs ih =>
    obtain ⟨log', hlog⟩ := ih
    exact ⟨_, by rw [List.append_assoc]; exact hlog.step s hs⟩
  | turn _ arena ih =>
    obtain ⟨log', hlog⟩ := ih
    exact ⟨log', hlog.turn arena⟩

theorem Leads.linked (hw : w.Leads w') (h : Reached w log) : w'.forest.Linked := by
  obtain ⟨log', hlog⟩ := hw.exists_reached h
  exact hlog.grown.linked

/-- **Later forests prolong earlier ones.** -/
theorem Leads.prolongs (hw : w.Leads w') (h : Reached w log) :
    w'.forest.Prolongs w.forest := by
  induction hw with
  | refl => exact .refl _
  | step hw s hs ih => exact ih.trans (prolongs_step (hw.linked h) hs)
  | turn _ arena ih => exact ih

/-! ## Constructions issue honoured receipts -/

/-- The receipt of a node minted over a list of arguments, or over none. -/
theorem honoured_mint (h : Grown w.forest log) {shape : Shape} {received : List NodeId}
    (hg : (w.mint shape).2.forest.Linked)
    (hlist : ∀ args argCount, shape.argList? = some (args, argCount) →
      (∀ n ∈ args, n < w.forest.size) ∧ received = w.forest.chain args ∧
        received.length = argCount) :
    Receipt.Honoured (w.mint shape).2.forest ⟨w.forest.size, received⟩ := by
  intro args argCount hargs
  rw [forest_mint, shape_add, if_pos rfl] at hargs
  obtain ⟨hhead, rfl, hlength⟩ := hlist args argCount hargs
  have hgf := (Mints.mint (.start (w := w)) shape).prolongs
  exact ⟨hgf.prefix_chain h.linked hg hhead, hlength⟩

/-- A record without fields lists the string built for it. -/
theorem buildRecord_none_eq (w : Workshop) :
    w.buildRecord none = (w.mint (.str "")).2.mint (.record w.forest.size 1) :=
  congrArg (fun field => (w.mint (.str "")).2.mint (.record field 1)) (w.fst_mint (.str ""))

theorem buildMap_none_eq (w : Workshop) (name : String) :
    w.buildMap name none = (w.buildRecord none).2.mint (.map name (w.buildRecord none).1) := rfl

theorem honoured_buildRecord_none (h : Grown w.forest log) :
    ∀ r ∈ [⟨w.forest.size + 1, [w.forest.size]⟩, ⟨w.forest.size, []⟩],
      Receipt.Honoured (w.buildRecord none).2.forest r := by
  have hfield : Grown (w.mint (.str "")).2.forest _ :=
    grown_mint h (.str "") fun _ hn => absurd hn List.not_mem_nil
  have hsize : (w.mint (.str "")).2.forest.size = w.forest.size + 1 := by simp
  have hlinked := (grown_buildRecord_none h).linked
  rw [buildRecord_none_eq] at hlinked ⊢
  rw [List.forall_mem_cons, List.forall_mem_singleton, ← hsize]
  constructor
  · refine honoured_mint hfield hlinked fun args argCount hargs => ?_
    obtain ⟨rfl, rfl⟩ := Prod.mk.inj (Option.some.inj hargs)
    refine ⟨fun n hn => ?_, (w.chain_mint_self _).symm, rfl⟩
    rw [← Option.some.inj hn, hsize]
    exact Nat.lt_succ_self _
  · have hstring : Receipt.Honoured (w.mint (.str "")).2.forest ⟨w.forest.size, []⟩ :=
      honoured_mint h hfield.linked fun _ _ hargs => by cases hargs
    exact hstring.prolong (Mints.mint .start _).prolongs hfield.linked hlinked
      (hsize ▸ Nat.lt_succ_self _)

/-- **What a construction mints has honoured receipts.** -/
theorem honoured_construct (h : Grown w.forest log) {c : Construct}
    (hlt : ∀ n ∈ c.nodes, n < w.forest.size) (hw : w.construct c = .ok (n, w')) :
    ∀ r ∈ c.receipts w.forest, r.Honoured w'.forest := by
  have hg := (grown_construct h hlt hw).linked
  -- All but three sorts of construction mint one node.
  have hone : ∀ {shape : Shape} {received : List NodeId}, w.mint shape = (n, w') →
      (∀ args argCount, shape.argList? = some (args, argCount) →
        (∀ n ∈ args, n < w.forest.size) ∧ received = w.forest.chain args ∧
          received.length = argCount) →
      ∀ r ∈ [⟨w.forest.size, received⟩], Receipt.Honoured w'.forest r := fun hw hlist r hr => by
    obtain rfl : (w.mint _).2 = w' := congrArg Prod.snd hw
    rw [List.mem_singleton.mp hr]
    exact honoured_mint h hg hlist
  cases c with
  | call module function args =>
    refine hone (Except.ok.inj hw) fun head argCount hargs => ?_
    obtain ⟨rfl, rfl⟩ := Prod.mk.inj (Option.some.inj hargs)
    exact ⟨fun n hn => hlt n (Option.mem_toList.mpr hn), rfl, rfl⟩
  | record args =>
    cases args with
    | none =>
      obtain rfl : (w.buildRecord none).2 = w' := congrArg Prod.snd (Except.ok.inj hw)
      exact honoured_buildRecord_none h
    | some head =>
      refine hone (show w.mint (.record head _) = _ from Except.ok.inj hw)
        fun args argCount hargs => ?_
      obtain ⟨rfl, rfl⟩ := Prod.mk.inj (Option.some.inj hargs)
      exact ⟨fun n hn => hlt n (Option.mem_toList.mpr hn), rfl, rfl⟩
  | map name key =>
    cases key with
    | none =>
      obtain rfl : (w.buildMap name none).2 = w' := congrArg Prod.snd (Except.ok.inj hw)
      have hrecord := grown_buildRecord_none h
      rw [buildMap_none_eq] at hg ⊢
      refine List.forall_mem_cons.mpr ⟨?_, fun r hr => ?_⟩
      · rw [← size_buildRecord_none]
        exact honoured_mint hrecord hg
          fun _ _ (hargs : (Shape.map _ _).argList? = _) => by cases hargs
      · exact (honoured_buildRecord_none h r hr).prolong (Mints.mint .start _).prolongs
          hrecord.linked hg (hrecord.node_lt r (List.mem_append_left log hr))
    | some key =>
      exact hone (show w.mint (.map name key) = _ from Except.ok.inj hw)
        fun _ _ hargs => by cases hargs
  | int literal =>
    obtain ⟨k, -, hk⟩ := exists_of_map_eq_ok hw
    exact hone hk fun _ _ hargs => by cases hargs
  | unroll count statements =>
    obtain ⟨k, -, hk⟩ := exists_of_map_eq_ok hw
    exact hone hk fun _ _ hargs => by cases hargs
  | method target invocation =>
    obtain rfl : (w.buildMethod target invocation).2 = w' :=
      congrArg Prod.snd (Except.ok.inj hw)
    refine List.forall_mem_singleton.mpr ?_
    rw [← size_setModule w.forest invocation "method"]
    exact honoured_mint (w := w.withForest (w.forest.setModule invocation "method"))
      (h.setModule invocation "method") hg
      fun _ _ (hargs : (Shape.method _ _).argList? = _) => by cases hargs
  | str | var | negation | binop | assign | ifElse | breakLoop | continueLoop | returnProbe
  | probe | script | stackValue =>
    exact hone (Except.ok.inj hw) fun _ _ hargs => by cases hargs

/-- **All receipts are honoured**, however long ago they were issued. -/
theorem Reached.honoured (h : Reached w log) : ∀ r ∈ log, r.Honoured w.forest := by
  induction h with
  | start => exact fun _ hr => absurd hr List.not_mem_nil
  | @step w log h s hs ih =>
    have hgrown := grown_step h.grown hs
    rw [List.forall_mem_append]
    refine ⟨fun r hr => ?_, fun r hr => (ih r hr).prolong (prolongs_step h.grown.linked hs)
      h.grown.linked hgrown.linked (h.grown.node_lt r hr)⟩
    cases s with
    | construct c =>
      rw [Step.receipts] at hr
      rw [Workshop.step]
      cases hw : w.construct c with
      | ok built =>
        rw [hw] at hr
        exact honoured_construct h.grown hs hw r hr
      | error fault =>
        rw [hw] at hr
        exact absurd hr List.not_mem_nil
    | _ => exact absurd hr List.not_mem_nil
  | turn _ arena ih => exact ih

/-! ## The string of a record without fields -/

theorem shapes_buildRecord_none (w : Workshop) :
    (w.buildRecord none).2.forest.shape w.forest.size = .str "" ∧
      (w.buildRecord none).2.forest.shape (w.forest.size + 1) = .record w.forest.size 1 := by
  simp [buildRecord_none_eq, shape_add]

theorem step_construct {c : Construct} {built : NodeId × Workshop}
    (hw : w.construct c = .ok built) : (w.step (.construct c)).2 = built.2 := by
  rw [Workshop.step, hw]
  rfl

/-- A record without fields is built the same alone and for a map without key. -/
theorem prolongs_buildRecord_none {c : Construct}
    (hc : c = .record none ∨ ∃ name, c = .map name none) :
    (w.step (.construct c)).2.forest.Prolongs (w.buildRecord none).2.forest := by
  rcases hc with rfl | ⟨name, rfl⟩
  · rw [step_construct (show w.construct (.record none) = .ok (w.buildRecord none) from rfl)]
    exact .refl _
  · rw [step_construct (show w.construct (.map name none) = .ok (w.buildMap name none) from rfl),
      buildMap_none_eq]
    exact (Mints.mint .start _).prolongs

/-- **The list of a record without fields begins with the string built for it.** -/
theorem implicit_string (h : Reached w log) {c : Construct}
    (hc : c = .record none ∨ ∃ name, c = .map name none)
    (hw : (w.step (.construct c)).2.Leads w') :
    w'.forest.shape w.forest.size = .str "" ∧
      w'.forest.shape (w.forest.size + 1) = .record w.forest.size 1 ∧
      (w'.forest.chain (some w.forest.size)).take 1 = [w.forest.size] := by
  have hnodes : c.nodes = [] := by rcases hc with rfl | ⟨name, rfl⟩ <;> rfl
  have hbuilt := h.step (.construct c) fun n hn => by
    rw [Step.nodes, hnodes] at hn
    exact absurd hn List.not_mem_nil
  have hgf := (prolongs_buildRecord_none hc).trans (hw.prolongs hbuilt)
  have hsize := w.size_buildRecord_none
  have hlt : w.forest.size < (w.buildRecord none).2.forest.size := by rw [hsize]; omega
  obtain ⟨hstring, hrecord⟩ := w.shapes_buildRecord_none
  refine ⟨Shape.eq_of_unmarked_eq ?_ ?_, Shape.eq_of_unmarked_eq ?_ ?_, ?_⟩
  · rw [hgf.shape _ hlt, hstring]
  · simp [Shape.kind]
  · rw [hgf.shape _ (by rw [hsize]; omega), hrecord]
  · simp [Shape.kind]
  · have hhead : ∀ n ∈ some w.forest.size, n < w'.forest.size := fun n hn => by
      rw [← Option.some.inj hn]
      exact Nat.lt_of_lt_of_le hlt hgf.size_le
    have hchained := (hw.linked hbuilt).chained hhead
    generalize w'.forest.chain (some w.forest.size) = ns at hchained ⊢
    cases hchained
    rfl

/-! ## Chains only grow -/

/-- **Whatever is done after a workshop was reached, links end and chains only grow at their end.**
A successor that is set stays, a parent is built after its child, a chain begins with what it was
before, and the arguments that a call or record was built over come first in its list, those of a
record without fields being the string built for it. -/
theorem chains_only_grow (h : Reached w log) (hw : w.Leads w') :
    (w'.forest.Ended ∧ ∀ ns : List NodeId, (∀ n ∈ ns, n < w'.forest.size) →
      (w'.forest.link ns).2.Ended) ∧
    (∀ n p, w'.forest.parent n = some p → n < p ∧ p < w'.forest.size) ∧
    (∀ n m, w.forest.next n = some m → w'.forest.next n = some m) ∧
    (∀ head, (∀ n ∈ head, n < w.forest.size) →
      w.forest.chain head <+: w'.forest.chain head) ∧
    (∀ n < w.forest.size, ∃ r ∈ log, r.node = n) ∧
    (∀ r ∈ log, ∀ args argCount,
      (w'.forest.shape r.node).argList? = some (args, argCount) →
        (w'.forest.chain args).take argCount = r.received) ∧
    ∀ c w'', c = .record none ∨ (∃ name, c = .map name none) →
      (w.step (.construct c)).2.Leads w'' →
        w''.forest.shape w.forest.size = .str "" ∧
        w''.forest.shape (w.forest.size + 1) = .record w.forest.size 1 ∧
        (w''.forest.chain (some w.forest.size)).take 1 = [w.forest.size] := by
  obtain ⟨log', hlater⟩ := hw.exists_reached h
  have hprolongs := hw.prolongs h
  refine ⟨⟨hlater.grown.ended, fun ns hns => (grown_link hlater.grown hns).ended⟩,
    fun n p hp => hlater.grown.lt_parent hp, fun n m hn => hprolongs.next hn,
    fun head hhead => hprolongs.prefix_chain h.grown.linked hlater.grown.linked hhead,
    h.grown.exists_receipt, fun r hr args argCount hargs => ?_,
    fun c w'' hc hw'' => implicit_string h hc hw''⟩
  obtain ⟨hreceived, rfl⟩ := hlater.honoured r (List.mem_append_right log' hr) args argCount hargs
  exact (List.prefix_iff_eq_take.mp hreceived).symm

/-- Two linked nodes handed to a call, and then the call itself appended to them, so that it is
among its own arguments. -/
theorem chains_only_grow_of_root : ∃ w log w', Reached w log ∧ w.Leads w' ∧
    w'.forest.shape 2 = .call none "f" (some 0) 2 ∧ w'.forest.chain (some 0) = [0, 1, 2] ∧
    w'.forest.Ended ∧ (w'.forest.chain (some 0)).take 2 = [0, 1] := by
  have hpair := ((Reached.start.step (.construct (.var "x")) (by decide)).step
    (.construct (.var "y")) (by decide)).step (.link [0, 1]) (by decide)
  have hcall := hpair.step (.construct (.call none "f" (some 0))) (by decide)
  obtain ⟨⟨hended, -⟩, -, -, -, -, hargs, -⟩ :=
    chains_only_grow hcall (Leads.refl.step (.append (some 0) 2) (by decide))
  exact ⟨_, _, _, hcall, Leads.refl.step (.append (some 0) 2) (by decide), by decide, by decide,
    hended, hargs ⟨2, [0, 1]⟩ (by decide) (some 0) 2 (by decide)⟩

end Workshop

end ProbeScript
