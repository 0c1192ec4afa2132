import ProbeScript.Arena.Freeing
import ProbeScript.Proofs.Forest.Euler

/-!
# Proofs/Arena/Freed — what becomes of an arena while a tree is freed

A release takes one node from the arena and leaves the others (`owns_iff_of_release`), so releases
one after the other are of nodes owned, none of them twice (`Releases`).  Freeing releases the nodes
of a tree in the order in which a walk leaves them: all of them, or those before the first one that
the arena does not own by then (`free_outcome`).  Where the descent does not end, what is released
is still one node after the other (`releases_freed`).
-/

namespace ProbeScript

open Forest

variable {a b a' : Arena} {f : Forest} {n m : NodeId} {ns ms : List NodeId}

namespace Arena

/-! ## One release -/

theorem exists_release (h : a.owns n = true) : ∃ a', a.release f n = .ok a' := by
  obtain ⟨⟨m, record⟩, hentry⟩ := Option.isSome_iff_exists.mp h
  exact ⟨_, by rw [release, hentry]⟩

theorem release_of_not_owns (h : a.owns n = false) :
    a.release f n = .error (.notLive (f.kind n)) := by
  have hentry : a.entry? n = none := Option.not_isSome_iff_eq_none.mp (Bool.eq_false_iff.mp h)
  rw [release, hentry]

theorem owns_of_release (h : a.release f n = .ok a') : a.owns n = true := by
  by_contra hn
  rw [release_of_not_owns (Bool.eq_false_iff.mpr hn)] at h
  cases h

theorem live_of_release (h : a.release f n = .ok a') :
    a'.live = a.live.filter fun entry => entry.1 != n := by
  rw [release] at h
  split at h
  · cases h
  · exact congrArg live (Except.ok.inj h).symm

theorem owns_iff : a.owns n = true ↔ n ∈ a.live.map Prod.fst := by
  rw [owns, entry?, List.find?_isSome, List.mem_map]
  exact exists_congr fun entry => and_congr_right fun _ => beq_iff_eq

/-- **A release takes one node from the arena and no other.** -/
theorem owns_iff_of_release (h : a.release f n = .ok a') :
    a'.owns m = true ↔ a.owns m = true ∧ m ≠ n := by
  rw [owns_iff, owns_iff, live_of_release h]
  constructor
  · intro hm
    obtain ⟨entry, hentry, rfl⟩ := List.mem_map.mp hm
    obtain ⟨hentry, hne⟩ := List.mem_filter.mp hentry
    exact ⟨List.mem_map_of_mem hentry, bne_iff_ne.mp hne⟩
  · rintro ⟨hm, hne⟩
    obtain ⟨entry, hentry, rfl⟩ := List.mem_map.mp hm
    exact List.mem_map_of_mem (List.mem_filter.mpr ⟨hentry, bne_iff_ne.mpr hne⟩)

/-! ## One release after the other -/

/-- Nodes released one after the other lead from one arena to another. -/
inductive Releases (f : Forest) : List NodeId → Arena → Arena → Prop where
  | nil (a : Arena) : Releases f [] a a
  | cons {n : NodeId} {ns : List NodeId} {a b a' : Arena} (first : a.release f n = .ok b)
      (rest : Releases f ns b a') : Releases f (n :: ns) a a'

namespace Releases

theorem append (h : Releases f ns a b) (h' : Releases f ms b a') : Releases f (ns ++ ms) a a' := by
  induction h with
  | nil => exact h'
  | cons first _ ih => exact .cons first (ih h')

theorem owns_iff (h : Releases f ns a a') : a'.owns m = true ↔ a.owns m = true ∧ m ∉ ns := by
  induction h with
  | nil => simp
  | cons first _ ih =>
    rw [ih, owns_iff_of_release first, List.mem_cons, not_or, and_assoc]

theorem owned (h : Releases f ns a a') : ∀ n ∈ ns, a.owns n = true := by
  induction h with
  | nil => exact fun _ hn => absurd hn List.not_mem_nil
  | cons first _ ih =>
    intro m hm
    rcases List.mem_cons.mp hm with rfl | hm
    · exact owns_of_release first
    · exact ((owns_iff_of_release first).mp (ih m hm)).1

/-- No node is released twice. -/
theorem nodup (h : Releases f ns a a') : ns.Nodup := by
  induction h with
  | nil => exact List.nodup_nil
  | cons first rest ih =>
    exact List.nodup_cons.mpr
      ⟨fun hn => ((owns_iff_of_release first).mp (rest.owned _ hn)).2 rfl, ih⟩

end Releases

end Arena

/-! ## Freeing -/

/-- **Nodes in a row are all released, or those before the first one not owned by then.** -/
theorem Freeing.runEach_outcome (f : Forest) : ∀ (ns : List NodeId) (s : Freeing),
    (∃ a, Arena.Releases f ns s.arena a ∧
      (Freeing.visit f).runEach ns s = (.ok 0, ⟨a, s.released + ns.length⟩)) ∨
    ∃ before n after a, ns = before ++ n :: after ∧ Arena.Releases f before s.arena a ∧
      a.owns n = false ∧ (Freeing.visit f).runEach ns s
        = (.error (.notLive (f.kind n)), ⟨a, s.released + before.length⟩)
  | [], s => .inl ⟨s.arena, .nil _, rfl⟩
  | n :: ns, s => by
    cases howned : s.arena.owns n with
    | false =>
      refine .inr ⟨[], n, ns, s.arena, rfl, .nil _, howned, ?_⟩
      rw [Visitor.runEach, visit, Arena.release_of_not_owns howned]
      rfl
    | true =>
      obtain ⟨b, hb⟩ := Arena.exists_release (f := f) howned
      have hrun : (visit f).runEach (n :: ns) s = (visit f).runEach ns ⟨b, s.released + 1⟩ := by
        rw [Visitor.runEach, visit, hb, Progress.proceed_go]
      have hlength (k : Nat) : s.released + 1 + k = s.released + (k + 1) := by omega
      rw [hrun]
      rcases runEach_outcome f ns ⟨b, s.released + 1⟩ with
        ⟨a, hall, h⟩ | ⟨before, m, after, a, rfl, hsome, hm, h⟩
      · exact .inl ⟨a, .cons hb hall, h.trans (by rw [hlength, List.length_cons])⟩
      · exact .inr ⟨n :: before, m, after, a, rfl, .cons hb hsome, hm,
          h.trans (by rw [hlength, List.length_cons])⟩

namespace Arena

/-- **Freeing a tree releases all its nodes, each after those below it, or stops at the first one
that the arena does not own by then.** -/
theorem free_outcome (a : Arena) (hground : f.Grounded n) :
    (∃ a', Releases f (f.postorder n) a a' ∧ a.free f n = (.ok (f.preorder n).length, a')) ∨
    ∃ before m after a', f.postorder n = before ++ m :: after ∧ Releases f before a a' ∧
      a'.owns m = false ∧ a.free f n = (.error (.notLive (f.kind m)), a') := by
  rw [free, hground.walk_none_some]
  rcases Freeing.runEach_outcome f (f.postorder n) { arena := a } with
    ⟨a', hall, h⟩ | ⟨before, m, after, a', hsplit, hsome, hm, h⟩
  · refine .inl ⟨a', hall, ?_⟩
    rw [h, hground.postorder_perm.length_eq]
    exact congrArg (fun k => (Except.ok k, a')) (Nat.zero_add _)
  · exact .inr ⟨before, m, after, a', hsplit, hsome, hm, by rw [h]; rfl⟩

/-- **A tree is freed when its nodes are met once each and the arena owns them all**, and as many
nodes are released as there are. -/
theorem exists_free (hground : f.Grounded n) (hnodup : (f.preorder n).Nodup)
    (howned : ∀ m ∈ f.preorder n, a.owns m = true) :
    ∃ a', Releases f (f.postorder n) a a' ∧ a.free f n = (.ok (f.preorder n).length, a') := by
  refine (a.free_outcome hground).resolve_right ?_
  rintro ⟨before, m, after, a', hsplit, hsome, hm, -⟩
  have hperm := hground.postorder_perm
  have hbefore : m ∉ before := by
    have hnodup := hperm.nodup_iff.mpr hnodup
    rw [hsplit, List.nodup_middle, List.nodup_cons] at hnodup
    exact fun hm => hnodup.1 (List.mem_append_left _ hm)
  have hmem : m ∈ f.preorder n :=
    hperm.mem_iff.mp (hsplit ▸ List.mem_append_right _ List.mem_cons_self)
  exact Bool.false_ne_true (hm.symm.trans (hsome.owns_iff.mpr ⟨howned m hmem, hbefore⟩))

end Arena

/-! ## Two walks side by side -/

section Alongside

variable {ε σ σ' : Type} {R : σ → σ' → Prop}

/-- Two walks have come to the same answer, in states that go together. -/
def Progress.Alongside (R : σ → σ' → Prop) (p : Progress ε σ) (q : Progress ε σ') : Prop :=
  p.1 = q.1 ∧ R p.2 q.2

theorem Progress.Alongside.proceed {p : Progress ε σ} {q : Progress ε σ'} (h : p.Alongside R q)
    {rest : σ → Progress ε σ} {rest' : σ' → Progress ε σ'}
    (hrest : ∀ s s', R s s' → (rest s).Alongside R (rest' s')) :
    (p.proceed rest).Alongside R (q.proceed rest') := by
  obtain ⟨outcome, s⟩ := p
  obtain ⟨outcome', s'⟩ := q
  obtain ⟨rfl, hs⟩ : outcome = outcome' ∧ R s s' := h
  cases outcome with
  | error what => exact ⟨rfl, hs⟩
  | ok status =>
    simp only [Progress.proceed]
    split
    · exact hrest s s' hs
    · exact ⟨rfl, hs⟩

theorem Visitor.runEach_alongside {visitor : Visitor ε σ} {visitor' : Visitor ε σ'}
    (h : ∀ n s s', R s s' → (visitor n s).Alongside R (visitor' n s')) :
    ∀ (ns : List NodeId) {s : σ} {s' : σ'}, R s s' →
      (visitor.runEach ns s).Alongside R (visitor'.runEach ns s')
  | [], _, _, hs => ⟨rfl, hs⟩
  | n :: ns, _, _, hs => (h n _ _ hs).proceed fun _ _ => runEach_alongside h ns

/-- **Walks whose callbacks go side by side go side by side**, even where the descent does not
end. -/
theorem Forest.walkUpTo_alongside [Raises ε] {pre post : Option (Visitor ε σ)}
    {pre' post' : Option (Visitor ε σ')}
    (hpre : ∀ n s s', R s s' → (Visitor.run pre n s).Alongside R (Visitor.run pre' n s'))
    (hpost : ∀ n s s', R s s' → (Visitor.run post n s).Alongside R (Visitor.run post' n s')) :
    ∀ (depth : Nat) (n : NodeId) (s : σ) (s' : σ'), R s s' →
      (f.walkUpTo pre post depth n s).Alongside R (f.walkUpTo pre' post' depth n s')
  | 0, _, _, _, hs => ⟨rfl, hs⟩
  | depth + 1, n, s, s', hs => by
    rw [walkUpTo, walkUpTo]
    refine (hpre n s s' hs).proceed fun s s' hs => ?_
    refine (Visitor.runEach_alongside (walkUpTo_alongside hpre hpost depth) _ hs).proceed
      fun s s' hs => ?_
    exact (hpost n s s' hs).proceed fun s s' hs => ⟨rfl, hs⟩

/-- **What both callbacks keep is kept by a walk**, wherever it stops. -/
theorem Forest.walk_keeps [Raises ε] {P : σ → Prop} {pre post : Option (Visitor ε σ)}
    (hpre : ∀ n s, P s → P (Visitor.run pre n s).2)
    (hpost : ∀ n s, P s → P (Visitor.run post n s).2)
    (n : NodeId) {s : σ} (h : P s) : P (f.walk n pre post s).2 := by
  -- A walk goes alongside itself.
  let R (s t : σ) : Prop := P s ∧ s = t
  have hwalk : (f.walk n pre post s).Alongside R (f.walk n pre post s) := by
    refine walkUpTo_alongside ?_ ?_ _ n s s ⟨h, rfl⟩
    · rintro n s _ ⟨hs, rfl⟩
      exact ⟨rfl, hpre n s hs, rfl⟩
    · rintro n s _ ⟨hs, rfl⟩
      exact ⟨rfl, hpost n s hs, rfl⟩
  exact hwalk.2.1

end Alongside

/-! ## The nodes released -/

/-- A callback that also lists the nodes at which it comes to an answer. -/
def Visitor.logged {ε σ : Type} (visitor : Visitor ε σ) : Visitor ε (σ × List NodeId) :=
  fun n (s, log) =>
    match visitor n s with
    | (.ok status, t) => (.ok status, (t, log ++ [n]))
    | (.error what, t) => (.error what, (t, log))

namespace Arena

/-- The nodes released while a tree is freed, in order.  A fault ends the list. -/
def freed (a : Arena) (f : Forest) (root : NodeId) : List NodeId :=
  (f.walk root none (some (Freeing.visit f).logged) ({ arena := a }, [])).2.2

/-- **Freeing is releasing the nodes listed**, one after the other. -/
theorem releases_freed (a : Arena) (f : Forest) (root : NodeId) :
    Releases f (a.freed f root) a (a.free f root).2 := by
  -- The walk that lists the nodes goes alongside the one that does not.
  let R (s : Freeing) (t : Freeing × List NodeId) : Prop := t.1 = s ∧ Releases f t.2 a s.arena
  have hvisit : ∀ n s t, R s t →
      (Freeing.visit f n s).Alongside R ((Freeing.visit f).logged n t) := by
    rintro n s ⟨s, log⟩ ⟨rfl, hlog⟩
    rw [Visitor.logged, Freeing.visit]
    cases hrelease : s.arena.release f n with
    | ok b => exact ⟨rfl, rfl, hlog.append (.cons hrelease (.nil b))⟩
    | error fault => exact ⟨rfl, rfl, hlog⟩
  have hwalk : (f.walk root none (some (Freeing.visit f)) { arena := a }).Alongside R
      (f.walk root none (some (Freeing.visit f).logged) ({ arena := a }, [])) :=
    walkUpTo_alongside (fun _ _ _ hs => ⟨rfl, hs⟩) hvisit _ root _ _ ⟨rfl, .nil a⟩
  exact hwalk.2.2

end Arena

end ProbeScript
