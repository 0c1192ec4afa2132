import Mathlib.Data.Finset.Card
import Mathlib.Logic.Relation
import ProbeScript.Forest.Descent
import ProbeScript.Forest.Lemmas

/-!
# Proofs/Forest/Grounded — where every descent ends

A node is grounded when every path downwards from it comes to an end.  Such a path meets no node
twice, so the number of nodes bounds it, and `Forest.visit?` finds the tree of visits
(`exists_visit`).  That tree grows by one visit over those of the children (`visit?_eq`), which is
how everything about the descent from a grounded node is proved.
-/

namespace ProbeScript.Forest

variable {f : Forest} {n c : NodeId}

/-! ## Paths downwards -/

/-- A node from which every path downwards ends. -/
inductive Grounded (f : Forest) : NodeId → Prop where
  | intro {n : NodeId} (children : ∀ c ∈ f.children n, f.Grounded c) : f.Grounded n

theorem Grounded.child (h : f.Grounded n) (hc : c ∈ f.children n) : f.Grounded c := by
  cases h with
  | intro children => exact children c hc

/-- A node lies below another when a path downwards leads to it. -/
def Below (f : Forest) : NodeId → NodeId → Prop :=
  Relation.TransGen fun c n => c ∈ f.children n

/-- **No grounded node lies below itself.** -/
theorem Grounded.not_below_self (h : f.Grounded n) : ¬ f.Below n n := by
  induction h with
  | intro _ ih =>
    intro hself
    obtain ⟨c, hpath, hc⟩ := Relation.TransGen.tail'_iff.mp hself
    exact ih c hc (Relation.TransGen.head' hc hpath)

/-- What has children is in use. -/
theorem lt_size_of_mem_children (hc : c ∈ f.children n) : n < f.size := by
  by_contra hn
  have hnode := f.node_eq_default (Nat.le_of_not_lt hn)
  have hslots : (f.shape n).slots = [] := by
    rw [shape, hnode]
    rfl
  simp [children, hslots] at hc

/-! ## The tree of visits

The nodes passed on the way down are distinct and in use, and each takes one from the bound. -/

theorem unfold_succ (depth : Nat) (n : NodeId) :
    f.unfold (depth + 1) n = ((f.children n).mapM (f.unfold depth)).map (Visit.node n) := rfl

theorem isSome_mapM {α β : Type} {g : α → Option β} :
    ∀ {l : List α}, (∀ a ∈ l, (g a).isSome) → (l.mapM g).isSome
  | [], _ => rfl
  | a :: l, h => by
    obtain ⟨b, hb⟩ := Option.isSome_iff_exists.mp (h a List.mem_cons_self)
    obtain ⟨bs, hbs⟩ := Option.isSome_iff_exists.mp
      (isSome_mapM fun a' ha' => h a' (List.mem_cons_of_mem a ha'))
    simp [hb, hbs]

/-- The results of a search over a list, element by element. -/
theorem mapM_eq_some_iff {α β : Type} {g : α → Option β} :
    ∀ {l : List α} {bs : List β},
      l.mapM g = some bs ↔ List.Forall₂ (fun a b => g a = some b) l bs
  | [], bs => by cases bs <;> simp
  | a :: l, bs => by
    cases bs with
    | nil => cases hb : g a <;> cases hbs : l.mapM g <;> simp [hb, hbs]
    | cons b bs =>
      rw [List.forall₂_cons, ← mapM_eq_some_iff (l := l)]
      cases hb : g a <;> cases hbs : l.mapM g <;> simp [hb, hbs]

/-- A descent ends within the bound that the nodes passed leave of the number of nodes. -/
theorem Grounded.isSome_unfold (h : f.Grounded n) :
    ∀ {depth : Nat} (passed : Finset NodeId), (∀ m ∈ passed, m < f.size ∧ f.Below n m) →
      f.size < depth + passed.card → (f.unfold depth n).isSome := by
  induction h with
  | @intro n children ih =>
    intro depth passed hpassed hdepth
    match depth with
    | 0 =>
      have hcard := Finset.card_le_card fun m hm => Finset.mem_range.mpr (hpassed m hm).1
      rw [Finset.card_range] at hcard
      omega
    | depth + 1 =>
      have hn : n ∉ passed := fun hn =>
        (Grounded.intro children).not_below_self (hpassed n hn).2
      rw [unfold_succ, Option.isSome_map]
      refine isSome_mapM fun c hc => ih c hc (insert n passed) (fun m hm => ?_) ?_
      · rcases Finset.mem_insert.mp hm with rfl | hm
        · exact ⟨lt_size_of_mem_children hc, Relation.TransGen.single hc⟩
        · exact ⟨(hpassed m hm).1, Relation.TransGen.head hc (hpassed m hm).2⟩
      · rw [Finset.card_insert_of_notMem hn]
        omega

/-- **A grounded node has a tree of visits.** -/
theorem Grounded.exists_visit (h : f.Grounded n) : ∃ v, f.visit? n = some v :=
  Option.isSome_iff_exists.mp
    (h.isSome_unfold ∅ (fun _ hm => absurd hm (Finset.notMem_empty _)) (by simp))

/-- A looser bound finds the same tree. -/
theorem unfold_mono :
    ∀ {depth depth' : Nat} {n : NodeId} {v : Visit}, depth ≤ depth' →
      f.unfold depth n = some v → f.unfold depth' n = some v
  | 0, _, _, _, _, h => nomatch h
  | depth + 1, depth' + 1, n, v, hle, h => by
    rw [unfold_succ, Option.map_eq_some_iff] at h ⊢
    obtain ⟨vs, hvs, rfl⟩ := h
    refine ⟨vs, ?_, rfl⟩
    rw [mapM_eq_some_iff] at hvs ⊢
    exact hvs.imp fun c w hc => unfold_mono (Nat.le_of_succ_le_succ hle) hc

/-- **The tree of visits grows by one visit over those of the children.** -/
theorem Grounded.visit?_eq (h : f.Grounded n) :
    ∃ vs, f.visit? n = some (.node n vs) ∧
      List.Forall₂ (fun c v => f.visit? c = some v) (f.children n) vs := by
  obtain ⟨v, hv⟩ := h.exists_visit
  obtain ⟨vs, hvs, rfl⟩ := Option.map_eq_some_iff.mp ((f.unfold_succ f.size n).symm.trans hv)
  exact ⟨vs, hv, (mapM_eq_some_iff.mp hvs).imp fun c w hc =>
    unfold_mono (Nat.le_succ f.size) hc⟩

/-- What is read off the trees of visits can be read off the nodes they start at. -/
theorem flatMap_visit? {β : Type} (g : Visit → List β) {ns : List NodeId} {vs : List Visit}
    (h : List.Forall₂ (fun c v => f.visit? c = some v) ns vs) :
    vs.flatMap g = ns.flatMap fun c => ((f.visit? c).map g).getD [] := by
  induction h with
  | nil => rfl
  | cons hc _ ih =>
    rw [List.flatMap_cons, List.flatMap_cons, ih, hc, Option.map_some, Option.getD_some]

theorem grounded_of_unfold :
    ∀ {depth : Nat} {n : NodeId} {v : Visit}, f.unfold depth n = some v → f.Grounded n
  | depth + 1, n, v, h => by
    obtain ⟨vs, hvs, -⟩ := Option.map_eq_some_iff.mp ((f.unfold_succ depth n).symm.trans h)
    refine .intro fun c hc => ?_
    obtain ⟨i, hi, rfl⟩ := List.getElem_of_mem hc
    have hvisits := mapM_eq_some_iff.mp hvs
    exact grounded_of_unfold (hvisits.get hi (hvisits.length_eq ▸ hi))

/-- A node is grounded just when it has a tree of visits. -/
theorem grounded_iff : f.Grounded n ↔ (f.visit? n).isSome :=
  ⟨fun h => Option.isSome_iff_exists.mpr h.exists_visit,
    fun h => grounded_of_unfold (Option.isSome_iff_exists.mp h).choose_spec⟩

instance (f : Forest) (n : NodeId) : Decidable (f.Grounded n) := decidable_of_iff' _ grounded_iff

end ProbeScript.Forest
