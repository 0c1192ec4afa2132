import ProbeScript.Proofs.Expression.Basic
import ProbeScript.Proofs.Forest.Euler
import ProbeScript.Proofs.Workshop.Reached

/-!
# Proofs/Expression/Reading — what is read back depends on what lies below

A node is read through the places of its shape.  It reads the same in any forest where these hold
the same nodes and those read the same (`readShape_transfer`), and what is read in its places, in
the order of `Forest.children`, are the parts of what is read (`mapM_children`).
-/

namespace ProbeScript.Forest

variable {f g : Forest} {read read' : NodeId → Option Expression} {e : Expression} {shape : Shape}

theorem mapM_transfer {α β : Type} {r r' : α → Option β} :
    ∀ {l : List α} {bs : List β}, l.mapM r = some bs →
      (∀ a ∈ l, ∀ b, r a = some b → r' a = some b) → l.mapM r' = some bs
  | [], _, h, _ => h
  | a :: l, bs, h, hr => by
    rw [mapM_eq_some_iff] at h ⊢
    cases h with
    | cons hb hbs =>
      refine .cons (hr a List.mem_cons_self _ hb) (mapM_eq_some_iff.mp ?_)
      exact mapM_transfer (mapM_eq_some_iff.mpr hbs) fun a' ha' =>
        hr a' (List.mem_cons_of_mem a ha')

/-- A chain is read the same where it holds the same nodes and those read the same. -/
theorem mapM_chain_transfer {head : Option NodeId} {es : List Expression}
    (h : (f.chain head).mapM read = some es)
    (hfill : ∀ s ∈ (head.map Slot.chain).toList, g.fill s = f.fill s)
    (hread : ∀ c ∈ (head.map Slot.chain).toList.flatMap f.fill, ∀ x,
      read c = some x → read' c = some x) :
    (g.chain head).mapM read' = some es := by
  rw [fill_chains] at hread
  have hchain : g.chain head = f.chain head := by
    rw [← fill_chains, ← fill_chains]
    exact List.flatMap_congr hfill
  rw [hchain]
  exact mapM_transfer h hread

theorem map_transfer {α β : Type} {x y : Option α} {k : α → β} {b : β} (h : x.map k = some b)
    (hxy : ∀ a, x = some a → y = some a) : y.map k = some b := by
  obtain ⟨a, ha, rfl⟩ := Option.map_eq_some_iff.mp h
  rw [hxy a ha, Option.map_some]

theorem bind_transfer {α β : Type} {x y : Option α} {k k' : α → Option β} {b : β}
    (h : (x >>= k) = some b) (hxy : ∀ a, x = some a → y = some a)
    (hk : ∀ a, k a = some b → k' a = some b) : (y >>= k') = some b := by
  obtain ⟨a, ha, hb⟩ := Option.bind_eq_some_iff.mp h
  rw [hxy a ha]
  exact hk a hb

/-- **A shape is read the same where its places hold the same nodes and those read the same.** -/
theorem readShape_transfer (h : f.readShape read shape = some e)
    (hfill : ∀ s ∈ shape.slots, g.fill s = f.fill s)
    (hread : ∀ c ∈ shape.slots.flatMap f.fill, ∀ x, read c = some x → read' c = some x) :
    g.readShape read' shape = some e := by
  -- A single node is found among those in the places, and a chain among the chains.
  have hone : ∀ c, Slot.one c ∈ shape.slots → ∀ x, read c = some x → read' c = some x :=
    fun c hc => hread c (List.mem_flatMap.mpr ⟨_, hc, List.mem_singleton_self c⟩)
  have hchain : ∀ head : Option NodeId, (∀ s ∈ (head.map Slot.chain).toList, s ∈ shape.slots) →
      ∀ xs, (f.chain head).mapM read = some xs → (g.chain head).mapM read' = some xs :=
    fun head hhead xs hxs => mapM_chain_transfer hxs (fun s hs => hfill s (hhead s hs))
      fun c hc => by
        obtain ⟨s, hs, hcs⟩ := List.mem_flatMap.mp hc
        exact hread c (List.mem_flatMap.mpr ⟨s, hhead s hs, hcs⟩)
  cases shape with
  | str | int | var | breakLoop | continueLoop | returnProbe | stackValue => exact h
  | script probes => exact map_transfer h (hchain probes fun _ hs => hs)
  | call module function args => exact map_transfer h (hchain args fun _ hs => hs)
  | unroll count statements => exact map_transfer h (hchain statements fun _ hs => hs)
  | record args => exact map_transfer h (hchain (some args) fun _ hs => hs)
  | map name key => exact map_transfer h (hone key (by simp [Shape.slots]))
  | negation operand => exact map_transfer h (hone operand (by simp [Shape.slots]))
  | binop operator left right =>
    exact bind_transfer h (hone left (by simp [Shape.slots])) fun _ h =>
      bind_transfer h (hone right (by simp [Shape.slots])) fun _ h => h
  | method target invocation =>
    exact bind_transfer h (hone target (by simp [Shape.slots])) fun _ h =>
      bind_transfer h (hone invocation (by simp [Shape.slots])) fun _ h => h
  | assign target value =>
    cases value with
    | none => exact map_transfer h (hone target (by simp [Shape.slots]))
    | some value =>
      exact bind_transfer h (hone target (by simp [Shape.slots])) fun _ h =>
        bind_transfer h (hone value (by simp [Shape.slots])) fun _ h => h
  | ifElse condition thenHead thenLast elseHead =>
    exact bind_transfer h (hone condition (by simp [Shape.slots])) fun _ h =>
      bind_transfer h (hchain thenHead fun _ hs => by simp_all [Shape.slots]) fun _ h =>
        bind_transfer h (hchain elseHead fun _ hs => by simp_all [Shape.slots]) fun _ h => h
  | probe spec predicate statements =>
    cases predicate with
    | none => exact map_transfer h (hchain statements fun _ hs => hs)
    | some predicate =>
      exact bind_transfer h (hone predicate (by simp [Shape.slots])) fun _ h =>
        bind_transfer h (hchain statements fun _ hs => by simp_all [Shape.slots]) fun _ h => h

/-! ## What is read in the places -/

theorem mapM_append_eq_some {α β : Type} {r : α → Option β} {l l' : List α} {bs bs' : List β}
    (h : l.mapM r = some bs) (h' : l'.mapM r = some bs') : (l ++ l').mapM r = some (bs ++ bs') := by
  rw [mapM_eq_some_iff] at h h' ⊢
  exact List.rel_append h h'

theorem exists_of_mapM {α β : Type} {r : α → Option β} {l : List α} {bs : List β}
    (h : l.mapM r = some bs) : ∀ a ∈ l, ∃ b, r a = some b :=
  ((List.forall₂_and_left l bs).mp ((mapM_eq_some_iff.mp h).imp fun _ b hab => ⟨⟨b, hab⟩, hab⟩)).1

/-- **What is read in the places of a shape, in their order, are the parts of what is read.** -/
theorem mapM_fill (h : f.readShape read shape = some e) :
    (shape.slots.flatMap f.fill).mapM read = some e.parts := by
  have hone : ∀ {c x}, read c = some x → (f.fill (.one c)).mapM read = some [x] :=
    fun hx => by simp [fill, hx]
  cases shape with
  | str | int | var | breakLoop | continueLoop | returnProbe | stackValue => cases h; rfl
  | script probes =>
    obtain ⟨xs, hxs, rfl⟩ := Option.map_eq_some_iff.mp h
    rwa [Shape.slots, fill_chains]
  | call module function args =>
    obtain ⟨xs, hxs, rfl⟩ := Option.map_eq_some_iff.mp h
    rwa [Shape.slots, fill_chains]
  | unroll count statements =>
    obtain ⟨xs, hxs, rfl⟩ := Option.map_eq_some_iff.mp h
    rwa [Shape.slots, fill_chains]
  | record args =>
    obtain ⟨xs, hxs, rfl⟩ := Option.map_eq_some_iff.mp h
    rwa [Shape.slots, List.flatMap_singleton]
  | map name key =>
    obtain ⟨x, hx, rfl⟩ := Option.map_eq_some_iff.mp h
    rw [Shape.slots, List.flatMap_singleton]
    exact hone hx
  | negation operand =>
    obtain ⟨x, hx, rfl⟩ := Option.map_eq_some_iff.mp h
    rw [Shape.slots, List.flatMap_singleton]
    exact hone hx
  | binop operator left right =>
    obtain ⟨x, hx, h⟩ := Option.bind_eq_some_iff.mp h
    obtain ⟨y, hy, h⟩ := Option.bind_eq_some_iff.mp h
    cases h
    exact mapM_append_eq_some (hone hx) (hone hy)
  | method target invocation =>
    obtain ⟨x, hx, h⟩ := Option.bind_eq_some_iff.mp h
    obtain ⟨y, hy, h⟩ := Option.bind_eq_some_iff.mp h
    cases h
    exact mapM_append_eq_some (hone hx) (hone hy)
  | assign target value =>
    cases value with
    | none =>
      obtain ⟨x, hx, rfl⟩ := Option.map_eq_some_iff.mp h
      exact hone hx
    | some value =>
      obtain ⟨x, hx, h⟩ := Option.bind_eq_some_iff.mp h
      obtain ⟨y, hy, h⟩ := Option.bind_eq_some_iff.mp h
      cases h
      exact mapM_append_eq_some (hone hx) (hone hy)
  | ifElse condition thenHead thenLast elseHead =>
    obtain ⟨x, hx, h⟩ := Option.bind_eq_some_iff.mp h
    obtain ⟨ys, hys, h⟩ := Option.bind_eq_some_iff.mp h
    obtain ⟨zs, hzs, h⟩ := Option.bind_eq_some_iff.mp h
    cases h
    rw [Shape.slots, List.flatMap_cons, List.flatMap_append, fill_chains, fill_chains]
    exact mapM_append_eq_some (hone hx) (mapM_append_eq_some hys hzs)
  | probe spec predicate statements =>
    rw [Shape.slots, List.flatMap_append, fill_chains]
    cases predicate with
    | none =>
      obtain ⟨xs, hxs, rfl⟩ := Option.map_eq_some_iff.mp h
      exact hxs
    | some predicate =>
      obtain ⟨x, hx, h⟩ := Option.bind_eq_some_iff.mp h
      obtain ⟨ys, hys, h⟩ := Option.bind_eq_some_iff.mp h
      cases h
      exact mapM_append_eq_some (hone hx) hys

/-! ## Reading deeper -/

theorem readUpTo_succ (depth : Nat) (n : NodeId) :
    f.readUpTo (depth + 1) n = f.readShape (f.readUpTo depth) (f.shape n) := rfl

/-- A looser bound reads the same. -/
theorem readUpTo_mono :
    ∀ {depth depth' : Nat} {n : NodeId} {e : Expression}, depth ≤ depth' →
      f.readUpTo depth n = some e → f.readUpTo depth' n = some e
  | 0, _, _, _, _, h => nomatch h
  | depth + 1, depth' + 1, n, e, hle, h => by
    rw [readUpTo_succ] at h ⊢
    exact readShape_transfer h (fun _ _ => rfl) fun c _ x hx =>
      readUpTo_mono (Nat.le_of_succ_le_succ hle) hx

/-- **The parts of what is read of a node are what is read of its children.** -/
theorem mapM_children {depth : Nat} {n : NodeId} (h : f.readUpTo (depth + 1) n = some e) :
    (f.children n).mapM (f.readUpTo depth) = some e.parts := mapM_fill h

/-! ## Reading a call that got its module -/

/-- What is read of a shape that is no call is no call. -/
theorem asMethod_of_readShape (h : f.readShape read shape = some e)
    (hcall : ∀ module function args argCount, shape ≠ .call module function args argCount) :
    e.asMethod = e := by
  have hmap : ∀ {α : Type} {x : Option α} {make : α → Expression},
      (∀ a, (make a).asMethod = make a) → x.map make = some e → e.asMethod = e := by
    intro α x make hmake hx
    obtain ⟨a, -, rfl⟩ := Option.map_eq_some_iff.mp hx
    exact hmake a
  have hbind : ∀ {α : Type} {x : Option α} {make : α → Option Expression},
      (∀ a, make a = some e → e.asMethod = e) → x.bind make = some e → e.asMethod = e := by
    intro α x make hmake hx
    obtain ⟨a, -, ha⟩ := Option.bind_eq_some_iff.mp hx
    exact hmake a ha
  have hsome : ∀ {e' : Expression}, e'.asMethod = e' → some e' = some e → e.asMethod = e := by
    rintro e' he' ⟨⟩
    exact he'
  cases shape with
  | call module function args argCount => exact absurd rfl (hcall module function args argCount)
  | record | map | negation | unroll | script => exact hmap (fun _ => rfl) h
  | assign target value =>
    cases value with
    | none => exact hmap (fun _ => rfl) h
    | some value => exact hbind (fun _ => hbind fun _ => hsome rfl) h
  | probe spec predicate statements =>
    cases predicate with
    | none => exact hmap (fun _ => rfl) h
    | some predicate => exact hbind (fun _ => hbind fun _ => hsome rfl) h
  | binop | method => exact hbind (fun _ => hbind fun _ => hsome rfl) h
  | ifElse => exact hbind (fun _ => hbind fun _ => hbind fun _ => hsome rfl) h
  | str | int | var | breakLoop | continueLoop | returnProbe | stackValue => exact hsome rfl h

/-- **A call that got the module of methods is read as that of a method**, and any other shape as
before. -/
theorem readShape_setModule {n : NodeId} (hn : n < f.size)
    (h : g.readShape read (f.shape n) = some e) :
    g.readShape read ((f.setModule n "method").shape n) = some e.asMethod := by
  rw [f.shape_setModule_self "method" hn]
  split
  · rename_i hshape
    rw [hshape] at h
    obtain ⟨xs, hxs, rfl⟩ := Option.map_eq_some_iff.mp h
    exact Option.map_eq_some_iff.mpr ⟨xs, hxs, rfl⟩
  · rename_i hcall
    rwa [asMethod_of_readShape h hcall]

end ProbeScript.Forest
