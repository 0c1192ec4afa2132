import ProbeScript.Proofs.Expression.Planted

/-!
# Proofs/Expression/Building — grafting trees onto a forest

Building grafts plots onto a forest: they stand side by side after all nodes there were, and those
are left alone (`Grafted`).  Joining the roots of plots keeps them grafted (`Grafted.link`), and so
does minting a node over all of them, which leaves one root (`Grafted.mint`).  What a construction
does to a workshop is then told by three statements: it seeds several free roots, it strings roots
into a chain, or it sprouts a single free root.
-/

namespace ProbeScript

namespace Forest

variable {f g h : Forest} {ps qs : List (Nat × Expression)} {e : Expression} {shape : Shape}
  {head : Option NodeId} {ns : List NodeId} {n : Nat}

/-- One forest grows out of another by plots side by side. -/
structure Grafted (f : Forest) (ps : List (Nat × Expression)) (g : Forest) : Prop where
  keeps : Keeps f g 0 f.size []
  tiled : g.Tiled f.size ps g.size

namespace Grafted

theorem nil (f : Forest) : f.Grafted [] f := ⟨.refl .., .nil _⟩

/-- What is grafted on later stands to the right. -/
theorem trans (hfg : f.Grafted ps g) (hgh : g.Grafted qs h) : f.Grafted (ps ++ qs) h := by
  have hkept : Keeps g h 0 f.size [] :=
    hgh.keeps.mono (Nat.le_refl 0) hfg.keeps.size fun _ hm _ _ => hm
  have htiled : h.Tiled f.size ps g.size := hfg.tiled.kept
    (hgh.keeps.mono (Nat.zero_le _) (Nat.le_refl _) fun _ hm _ _ => absurd hm List.not_mem_nil)
  exact ⟨hfg.keeps.trans hkept, htiled.append hgh.tiled⟩

/-- Chains of nodes that were there are kept. -/
theorem chained (hfg : f.Grafted ps g) (hns : f.Chained head ns) (hlt : ∀ n ∈ ns, n < f.size) :
    g.Chained head ns :=
  hns.congr fun n hn => hfg.keeps.next n (Nat.zero_le n) (hlt n hn) List.not_mem_nil

/-- Free nodes that were there stay free. -/
theorem free (hfg : f.Grafted ps g) (hn : f.Free n) (hlt : n < f.size) : g.Free n :=
  ⟨(hfg.keeps.next n (Nat.zero_le n) hlt List.not_mem_nil).trans hn.next,
    (hfg.keeps.parent n (Nat.zero_le n) hlt List.not_mem_nil).trans hn.parent⟩

theorem root_lt (hfg : f.Grafted ps g) : ∀ n ∈ ps.map Prod.fst, n < g.size := fun n hn =>
  (hfg.tiled.root_bounds n hn).2

/-- The roots are new, so a node that was there is none of them. -/
theorem root_ne (hfg : f.Grafted ps g) (hn : n < f.size) : n ∉ ps.map Prod.fst := fun hmem =>
  Nat.not_le_of_lt hn (hfg.tiled.root_bounds n hmem).1

/-- **A node minted over the roots of all plots grafted on leaves one plot, with a free root.** -/
theorem mint (hfg : f.Grafted ps g) (hover : g.Over shape (ps.map Prod.fst))
    (hread : ∀ read : NodeId → Option Expression, (∀ p ∈ ps, read p.1 = some p.2) →
      g.readShape read shape = some e) :
    f.Grafted [(g.size, e)] (g.add shape).2 ∧ (g.add shape).2.Free g.size := by
  have hplanted := hfg.tiled.add hover hread
  have hadd : Keeps g (g.add shape).2 0 f.size [] := by
    refine ⟨by rw [size_add]; exact Nat.le_succ _, fun m _ hm => ?_, fun m _ _ _ => next_add ..,
      fun m _ hm _ => hover.parent_add_of_notMem (hfg.root_ne hm)⟩
    rw [shape_add, if_neg (Nat.ne_of_lt (Nat.lt_of_lt_of_le hm hfg.keeps.size))]
  have hfresh := g.node_eq_default (Nat.le_refl _)
  refine ⟨⟨hfg.keeps.trans hadd, ?_⟩, ?_, ?_⟩
  · rw [size_add]
    exact .single hplanted
  · rw [next_add, next, hfresh]
    rfl
  · rw [hover.parent_add_of_notMem fun hmem => Nat.lt_irrefl _ (hfg.root_lt _ hmem), parent, hfresh]
    rfl

/-- **Joining the roots of plots leaves the plots grafted.** -/
theorem link (hfg : f.Grafted ps g) (hgh : g.Relinked h (ps.map Prod.fst)) : f.Grafted ps h := by
  have hkeeps : Keeps g h 0 g.size (ps.map Prod.fst) :=
    ⟨Nat.le_of_eq hgh.size.symm, fun m _ _ => hgh.shape m, fun m _ _ hm => hgh.next m hm,
      fun m _ _ _ => hgh.parent m⟩
  refine ⟨hfg.keeps.trans (hkeeps.mono (Nat.le_refl 0) hfg.keeps.size fun m hm _ hlt => ?_), ?_⟩
  · exact absurd hm (hfg.root_ne hlt)
  · rw [hgh.size]
    exact hfg.tiled.kept (hkeeps.mono (Nat.zero_le _) (Nat.le_refl _) fun _ hm _ _ => hm)

/-- **Giving the last root its module marks the expression read there**, and leaves the rest. -/
theorem setModule (hfg : f.Grafted ps g) (hgh : g.Grafted [(n, e)] h) :
    f.Grafted (ps ++ [(n, e.asMethod)]) (h.setModule n "method") := by
  have hmark : Keeps h (h.setModule n "method") 0 g.size [] := by
    refine ⟨Nat.le_of_eq (size_setModule ..).symm, fun m _ hm => ?_, fun m _ _ _ => ?_,
      fun m _ _ _ => ?_⟩
    · exact shape_setModule_of_ne "method" fun heq =>
        hgh.root_ne hm (List.mem_singleton.mpr heq)
    · exact next_setModule ..
    · exact parent_setModule ..
  refine hfg.trans ⟨hgh.keeps.trans hmark, ?_⟩
  obtain ⟨hplanted, hsize⟩ := hgh.tiled.planted
  rw [size_setModule, hsize]
  exact .single hplanted.setModule

end Grafted

end Forest

/-! ## What is built in a workshop -/

namespace Workshop

open Forest

variable {w w' : Workshop} {f : Forest} {e x y : Expression} {es : List Expression} {shape : Shape}
  {head head' : Option NodeId} {n m : NodeId}

/-- Several nodes are free roots of all that was grafted onto a forest, and read as expressions. -/
def Seeded (f : Forest) (es : List Expression) (built : List NodeId × Workshop) : Prop :=
  ∃ ps : List (Nat × Expression), ps.map Prod.fst = built.1 ∧ ps.map Prod.snd = es ∧
    f.Grafted ps built.2.forest ∧ ∀ n ∈ built.1, built.2.forest.Free n

/-- A chain joins the roots of all that was grafted onto a forest, and they read as expressions. -/
def Strung (f : Forest) (es : List Expression) (joined : Option NodeId × Workshop) : Prop :=
  ∃ ps : List (Nat × Expression), ps.map Prod.snd = es ∧ f.Grafted ps joined.2.forest ∧
    joined.2.forest.Chained joined.1 (ps.map Prod.fst)

/-- A node is the free root of all that was grafted onto a forest, and reads as an expression. -/
structure Sprouted (f : Forest) (e : Expression) (built : NodeId × Workshop) : Prop where
  grafted : f.Grafted [(built.1, e)] built.2.forest
  free : built.2.forest.Free built.1

/-- Nothing at all is seeded where nothing is built. -/
theorem Seeded.nil (w : Workshop) : Seeded w.forest [] ([], w) :=
  ⟨[], rfl, rfl, .nil _, fun _ hn => absurd hn List.not_mem_nil⟩

theorem Seeded.cons {ns : List NodeId} (hx : Sprouted f x (n, w))
    (hes : Seeded w.forest es (ns, w')) : Seeded f (x :: es) (n :: ns, w') := by
  obtain ⟨ps, hfst, hsnd, hgrafted, hfree⟩ := hes
  refine ⟨(n, x) :: ps, congrArg _ hfst, congrArg _ hsnd, hx.grafted.trans hgrafted, fun m hm => ?_⟩
  rcases List.mem_cons.mp hm with rfl | hm
  · exact hgrafted.free hx.free (hx.grafted.root_lt m (List.mem_singleton_self m))
  · exact hfree m hm

/-- **Free roots can be joined.** -/
theorem exists_join {outcome : Except Fault (List NodeId × Workshop)}
    (h : ∃ built, outcome = .ok built ∧ Seeded f es built) :
    ∃ joined, join outcome = .ok joined ∧ Strung f es joined := by
  obtain ⟨⟨ns, w⟩, rfl, ps, rfl, rfl, hgrafted, hfree⟩ := h
  obtain ⟨head, g, hlink, hchained, hrelinked⟩ :=
    exists_link hgrafted.tiled.nodup hgrafted.root_lt hfree
  refine ⟨(head, w.withForest g), ?_, ps, rfl, hgrafted.link hrelinked, hchained⟩
  simp only [join, bind, Except.bind, step, hlink]

/-! ## Minting -/

theorem mapM_roots {ps : List (Nat × Expression)} {read : NodeId → Option Expression}
    (h : ∀ p ∈ ps, read p.1 = some p.2) :
    (ps.map Prod.fst).mapM read = some (ps.map Prod.snd) := by
  rw [mapM_eq_some_iff, List.forall₂_map_left_iff, List.forall₂_map_right_iff]
  exact List.forall₂_same.mpr h

theorem mem_chains {first : NodeId} (h : Slot.chain first ∈ (head.map Slot.chain).toList) :
    head = some first := by
  cases head with
  | none => nomatch h
  | some head => rw [Slot.chain.inj (List.mem_singleton.mp h)]

/-- Single nodes and then two chains, either of which may be empty, are what all shapes but those
without any places are built over. -/
theorem over_of_slots {ps qs rs : List (Nat × Expression)} {f : Forest}
    (hlt : ∀ n ∈ (ps ++ (qs ++ rs)).map Prod.fst, n < f.size)
    (hqs : f.Chained head (qs.map Prod.fst)) (hrs : f.Chained head' (rs.map Prod.fst))
    (hslots : shape.slots = ps.map (fun p => Slot.one p.1) ++
      ((head.map Slot.chain).toList ++ (head'.map Slot.chain).toList))
    (hcounted : shape.Counted f.chain) :
    f.Over shape ((ps ++ (qs ++ rs)).map Prod.fst) ∧ f.chain head = qs.map Prod.fst ∧
      f.chain head' = rs.map Prod.fst := by
  have hmem : ∀ n, n ∈ qs.map Prod.fst ∨ n ∈ rs.map Prod.fst → n < f.size := by
    intro n hn
    refine hlt n ?_
    rw [List.map_append, List.map_append]
    exact List.mem_append_right _ (List.mem_append.mpr hn)
  have hhead : f.chain head = qs.map Prod.fst := hqs.chain_eq fun n hn => hmem n (.inl hn)
  have hhead' : f.chain head' = rs.map Prod.fst := hrs.chain_eq fun n hn => hmem n (.inr hn)
  have hones : (ps.map fun p => Slot.one p.1).flatMap f.fill = ps.map Prod.fst := by
    rw [List.flatMap_map]
    exact List.flatMap_pure_eq_map ..
  refine ⟨⟨?_, hlt, fun first hfirst => ?_, hcounted⟩, hhead, hhead'⟩
  · rw [hslots, List.flatMap_append, List.flatMap_append, fill_chains, fill_chains, hones, hhead,
      hhead', List.map_append, List.map_append]
  · rw [hslots, List.mem_append, List.mem_append] at hfirst
    obtain hfirst | hfirst | hfirst := hfirst
    · obtain ⟨p, -, hp⟩ := List.mem_map.mp hfirst
      nomatch hp
    · rw [← mem_chains hfirst, hhead]
      exact hqs
    · rw [← mem_chains hfirst, hhead']
      exact hrs

/-- **A node minted over single roots and over two chains of roots reads as its shape over what is
read there.** -/
theorem sprouted_mint (ps qs rs : List (Nat × Expression))
    (hfg : f.Grafted (ps ++ (qs ++ rs)) w.forest)
    (hqs : w.forest.Chained head (qs.map Prod.fst))
    (hrs : w.forest.Chained head' (rs.map Prod.fst))
    (hslots : shape.slots = ps.map (fun p => Slot.one p.1) ++
      ((head.map Slot.chain).toList ++ (head'.map Slot.chain).toList))
    (hcounted : shape.Counted w.forest.chain)
    (hread : ∀ read : NodeId → Option Expression, (∀ p ∈ ps, read p.1 = some p.2) →
      (w.forest.chain head).mapM read = some (qs.map Prod.snd) →
      (w.forest.chain head').mapM read = some (rs.map Prod.snd) →
      w.forest.readShape read shape = some e) :
    Sprouted f e (w.mint shape) := by
  obtain ⟨hover, hhead, hhead'⟩ := over_of_slots hfg.root_lt hqs hrs hslots hcounted
  obtain ⟨hgrafted, hfree⟩ := hfg.mint hover fun read hps =>
    hread read (fun p hp => hps p (List.mem_append_left _ hp))
      (hhead ▸ mapM_roots fun p hp =>
        hps p (List.mem_append_right _ (List.mem_append_left _ hp)))
      (hhead' ▸ mapM_roots fun p hp =>
        hps p (List.mem_append_right _ (List.mem_append_right _ hp)))
  refine ⟨?_, ?_⟩
  · rwa [fst_mint, forest_mint]
  · rwa [fst_mint, forest_mint]

/-- A node minted over single roots. -/
theorem sprouted_ones {ps : List (Nat × Expression)} (hfg : f.Grafted ps w.forest)
    (hslots : shape.slots = ps.map fun p => Slot.one p.1)
    (hcounted : shape.Counted w.forest.chain)
    (hread : ∀ read : NodeId → Option Expression, (∀ p ∈ ps, read p.1 = some p.2) →
      w.forest.readShape read shape = some e) : Sprouted f e (w.mint shape) :=
  sprouted_mint ps [] [] (by simpa using hfg) .nil .nil (by simpa using hslots) hcounted
    fun read hps _ _ => hread read hps

/-- A node minted over nothing. -/
theorem sprouted_leaf (hslots : shape.slots = []) (hcounted : shape.Counted w.forest.chain)
    (hread : ∀ read : NodeId → Option Expression, w.forest.readShape read shape = some e) :
    Sprouted w.forest e (w.mint shape) :=
  sprouted_ones (.nil _) hslots hcounted fun read _ => hread read

/-- A node minted over one root. -/
theorem sprouted_one (hx : Sprouted f x (n, w)) (hslots : shape.slots = [.one n])
    (hcounted : shape.Counted w.forest.chain)
    (hread : ∀ read : NodeId → Option Expression, read n = some x →
      w.forest.readShape read shape = some e) : Sprouted f e (w.mint shape) :=
  sprouted_ones hx.grafted hslots hcounted fun read hps =>
    hread read (hps _ (List.mem_singleton_self _))

/-- A node minted over two roots, built one after the other. -/
theorem sprouted_two (hx : Sprouted f x (n, w)) (hy : Sprouted w.forest y (m, w'))
    (hslots : shape.slots = [.one n, .one m]) (hcounted : shape.Counted w'.forest.chain)
    (hread : ∀ read : NodeId → Option Expression, read n = some x → read m = some y →
      w'.forest.readShape read shape = some e) : Sprouted f e (w'.mint shape) :=
  sprouted_ones (hx.grafted.trans hy.grafted) hslots hcounted fun read hps =>
    hread read (hps _ List.mem_cons_self) (hps (m, y) (List.mem_cons_of_mem _ List.mem_cons_self))

/-- A node minted over one chain of roots. -/
theorem sprouted_chain (hes : Strung f es (head, w))
    (hslots : shape.slots = (head.map Slot.chain).toList)
    (hcounted : shape.Counted w.forest.chain)
    (hread : ∀ read : NodeId → Option Expression, (w.forest.chain head).mapM read = some es →
      w.forest.readShape read shape = some e) : Sprouted f e (w.mint shape) := by
  obtain ⟨ps, rfl, hgrafted, hchained⟩ := hes
  exact sprouted_mint [] ps [] (by simpa using hgrafted) hchained .nil (by simpa using hslots)
    hcounted fun read _ hps _ => hread read hps

end Workshop

end ProbeScript
