import Mathlib.Data.List.Chain
import ProbeScript.Proofs.Forest.Euler

/-!
# Proofs/Forest/Lineage — the nodes a descent passes on the way to each visit

The lineages below a node list its visits in the order they are made, each with the nodes passed on
the way down to it.  They grow by one visit over those of the children, whose ways down are longer
by one node (`Grounded.lineages_eq`).
-/

namespace ProbeScript

/-- A visit to a node, with the nodes passed on the way down to it, the outermost first. -/
structure Lineage where
  above : List NodeId
  node : NodeId
  deriving DecidableEq

/-- The way down to a visit, with the node visited at its end. -/
def Lineage.path (l : Lineage) : List NodeId := l.above ++ [l.node]

namespace Visit

mutual

/-- The lineages of a visit and those below it, for a way down to it. -/
def lineages (above : List NodeId) : Visit → List Lineage
  | node id inner => ⟨above, id⟩ :: lineagesAll (above ++ [id]) inner

/-- The lineages of several visits, one visit after the other. -/
def lineagesAll (above : List NodeId) : List Visit → List Lineage
  | [] => []
  | v :: rest => v.lineages above ++ lineagesAll above rest

end

theorem lineagesAll_eq_flatMap (above : List NodeId) :
    ∀ vs : List Visit, lineagesAll above vs = vs.flatMap (lineages above)
  | [] => rfl
  | v :: rest => by rw [lineagesAll, lineagesAll_eq_flatMap above rest, List.flatMap_cons]

end Visit

namespace Forest

variable {f : Forest} {n : NodeId} {above : List NodeId} {l : Lineage}

/-- The lineages of the visits below a node, for a way down to it; none where the descent does not
end. -/
def lineages (f : Forest) (above : List NodeId) (n : NodeId) : List Lineage :=
  ((f.visit? n).map (Visit.lineages above)).getD []

/-- **The lineages of a node are its own and those of its children, one node further down.** -/
theorem Grounded.lineages_eq (h : f.Grounded n) (above : List NodeId) :
    f.lineages above n = ⟨above, n⟩ :: (f.children n).flatMap (f.lineages (above ++ [n])) := by
  obtain ⟨vs, hv, hvs⟩ := h.visit?_eq
  rw [lineages, hv, Option.map_some, Option.getD_some, Visit.lineages,
    Visit.lineagesAll_eq_flatMap, flatMap_visit? _ hvs]
  rfl

/-- The nodes of the lineages are the nodes visited, in the same order. -/
theorem Grounded.map_node_lineages (h : f.Grounded n) (above : List NodeId) :
    (f.lineages above n).map Lineage.node = f.preorder n := by
  induction h generalizing above with
  | @intro n children ih =>
    rw [(Grounded.intro children).lineages_eq, (Grounded.intro children).preorder_eq,
      List.map_cons, List.map_flatMap]
    exact congrArg _ (List.flatMap_congr fun c hc => ih c hc _)

/-- Every way down begins with the one to the node the descent starts at. -/
theorem Grounded.prefix_above (h : f.Grounded n) (hl : l ∈ f.lineages above n) :
    l = ⟨above, n⟩ ∨ above ++ [n] <+: l.above := by
  induction h generalizing above with
  | @intro n children ih =>
    rw [(Grounded.intro children).lineages_eq] at hl
    rcases List.mem_cons.mp hl with rfl | hl
    · exact .inl rfl
    · obtain ⟨c, hc, hl⟩ := List.mem_flatMap.mp hl
      rcases ih c hc hl with rfl | hprefix
      · exact .inr (List.prefix_refl _)
      · exact .inr ((List.prefix_append _ _).trans hprefix)

/-- All ways down but the first lead through the node the descent starts at. -/
theorem Grounded.prefix_above_of_later (h : f.Grounded n) {before after : List Lineage}
    {l' : Lineage} (hsplit : f.lineages above n = before ++ l :: after) (hl : l' ∈ after) :
    above ++ [n] <+: l'.above := by
  have hmem : l' ∈ (f.children n).flatMap (f.lineages (above ++ [n])) := by
    rw [h.lineages_eq] at hsplit
    cases before with
    | nil => exact (List.cons.inj hsplit).2 ▸ hl
    | cons first before =>
      rw [(List.cons.inj hsplit).2]
      exact List.mem_append_right _ (List.mem_cons_of_mem l hl)
  obtain ⟨c, hc, hmem⟩ := List.mem_flatMap.mp hmem
  rcases (h.child hc).prefix_above hmem with rfl | hprefix
  · exact List.prefix_refl _
  · exact (List.prefix_append _ _).trans hprefix

/-- The path of a lineage leads through the node the descent starts at. -/
theorem Grounded.prefix_path (h : f.Grounded n) (hl : l ∈ f.lineages above n) :
    above ++ [n] <+: l.path := by
  rcases h.prefix_above hl with rfl | hprefix
  · exact List.prefix_refl _
  · exact hprefix.trans (List.prefix_append _ _)

/-- Every step of a path leads from a node visited to one right below it. -/
theorem Grounded.isChain_path {R : NodeId → NodeId → Prop} (h : f.Grounded n)
    (hbelow : ∀ p ∈ f.preorder n, ∀ c ∈ f.children p, R p c) (habove : (above ++ [n]).IsChain R)
    (hl : l ∈ f.lineages above n) : l.path.IsChain R := by
  induction h generalizing above with
  | @intro n children ih =>
    have hn := Grounded.intro children
    rw [hn.lineages_eq] at hl
    rcases List.mem_cons.mp hl with rfl | hl
    · exact habove
    · obtain ⟨c, hc, hl⟩ := List.mem_flatMap.mp hl
      refine ih c hc (fun p hp => hbelow p ?_) ?_ hl
      · rw [hn.preorder_eq]
        exact List.mem_cons_of_mem n (List.mem_flatMap.mpr ⟨c, hc, hp⟩)
      · have hstep : R n c := hbelow n (by rw [hn.preorder_eq]; exact List.mem_cons_self) c hc
        exact List.isChain_append.mpr ⟨habove, List.isChain_singleton c, by simpa using hstep⟩

end Forest

end ProbeScript
