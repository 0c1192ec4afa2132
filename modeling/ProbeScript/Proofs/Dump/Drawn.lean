import ProbeScript.Proofs.Dump.Rendering

/-!
# Proofs/Dump/Drawn — what is drawn of any descent that ends

A walk draws one line for each visit, whether or not a node is visited more than once and whatever
the nodes have for parents (`diagram_eq_drawn`).  A visit hangs on one rail for each node above it,
so the depths of the visits can be read off a diagram; and they determine how many children each
node has (`Grounded.childCounts_depths`).
-/

namespace ProbeScript

open Forest

variable {f : Forest} {root n : NodeId} {above : List NodeId} {l : Lineage}

/-! ## The lines of a diagram -/

namespace Forest

/-- Whether the rail of a node goes on that is opened below others; the one at the top hangs on
nothing. -/
def railBelow (f : Forest) (rails : List Bool) (n : NodeId) : Bool :=
  !rails.isEmpty && f.isFollowed n

/-- The rails that are open below the nodes on a way down. -/
def railsAlong (f : Forest) (path : List NodeId) : List Bool :=
  path.foldl (fun rails n => rails ++ [f.railBelow rails n]) []

theorem railsAlong_concat (f : Forest) (path : List NodeId) (n : NodeId) :
    f.railsAlong (path ++ [n]) = f.railsAlong path ++ [f.railBelow (f.railsAlong path) n] :=
  List.foldl_concat ..

theorem length_railsAlong (f : Forest) (path : List NodeId) :
    (f.railsAlong path).length = path.length := by
  induction path using List.reverseRecOn with
  | nil => rfl
  | append_singleton path n ih =>
    rw [railsAlong_concat, List.length_append, List.length_append, ih]
    rfl

end Forest

/-- The line of a node, or nothing for a stack value. -/
def Ledger.lineText (ledger : Ledger) (f : Forest) (n : NodeId) : String :=
  (ledger.line f n).toOption.getD ""

theorem Ledger.line_eq_lineText (ledger : Ledger) (h : f.shape n ≠ .stackValue) :
    ledger.line f n = .ok (ledger.lineText f n) := by
  obtain ⟨line, hline⟩ := ledger.exists_line h
  rw [lineText, hline]
  rfl

namespace Store

variable {s : Store}

/-- What a walk draws for a visit: the rails open above it, a mark, and the line of the node. -/
def drawn (s : Store) (l : Lineage) : String :=
  Drawing.railText (s.forest.railsAlong l.above)
    ++ (if s.forest.railBelow (s.forest.railsAlong l.above) l.node then "|" else "`") ++ "-> "
    ++ s.ledger.lineText s.forest l.node

/-- The state of a drawing below a way down, with the lines of some visits. -/
def drawingBelow (s : Store) (path : List NodeId) (lines : List String) : Drawing :=
  ⟨lines, s.forest.railsAlong path⟩

theorem enter_drawingBelow (hstack : s.forest.shape n ≠ .stackValue) (lines : List String) :
    Drawing.enter s.forest s.ledger n (s.drawingBelow above lines)
      = (.ok 0, s.drawingBelow (above ++ [n]) (lines ++ [s.drawn ⟨above, n⟩])) := by
  rw [Drawing.enter, s.ledger.line_eq_lineText hstack, drawingBelow, drawingBelow,
    railsAlong_concat]
  rfl

theorem leave_drawingBelow (lines : List String) :
    Drawing.leave n (s.drawingBelow (above ++ [n]) lines)
      = (.ok 0, s.drawingBelow above lines) := by
  rw [Drawing.leave, drawingBelow, drawingBelow, railsAlong_concat, List.dropLast_concat]

/-- Nodes that draw lines below the same way down draw them one after the other. -/
theorem runEvents_flatMap {cs : List NodeId} {k : NodeId → List Event} {g : NodeId → List String}
    (h : ∀ c ∈ cs, ∀ lines,
      runEvents (some (Drawing.enter s.forest s.ledger)) (some Drawing.leave) (k c)
        (s.drawingBelow above lines) = (.ok 0, s.drawingBelow above (lines ++ g c)))
    (lines : List String) :
    runEvents (some (Drawing.enter s.forest s.ledger)) (some Drawing.leave) (cs.flatMap k)
        (s.drawingBelow above lines)
      = (.ok 0, s.drawingBelow above (lines ++ cs.flatMap g)) := by
  induction cs generalizing lines with
  | nil =>
    rw [List.flatMap_nil, List.flatMap_nil, List.append_nil]
    rfl
  | cons c cs ih =>
    obtain ⟨hc, hcs⟩ := List.forall_mem_cons.mp h
    rw [List.flatMap_cons, runEvents_append, hc, Progress.proceed_go, ih hcs, List.flatMap_cons,
      List.append_assoc]

/-- **The walk from a node draws its visits**, below whatever rails are open. -/
theorem runEvents_euler (h : s.forest.Grounded n)
    (hstack : ∀ m ∈ s.forest.preorder n, s.forest.shape m ≠ .stackValue) (lines : List String) :
    runEvents (some (Drawing.enter s.forest s.ledger)) (some Drawing.leave) (s.forest.euler n)
        (s.drawingBelow above lines)
      = (.ok 0, s.drawingBelow above (lines ++ (s.forest.lineages above n).map s.drawn)) := by
  induction h generalizing above lines with
  | @intro n children ih =>
    have hn := Grounded.intro children
    have hinner (lines : List String) :
        runEvents _ _ _ (s.drawingBelow (above ++ [n]) lines) = _ :=
      runEvents_flatMap (fun c hc => ih c hc fun m hm => hstack m (hn.preorder_subset hc hm)) lines
    rw [hn.euler_eq, hn.lineages_eq, List.cons_append, runEvents, Event.run, Visitor.run,
      enter_drawingBelow (hstack n hn.mem_preorder), Progress.proceed_go, runEvents_append,
      hinner, Progress.proceed_go, runEvents, Event.run, Visitor.run, leave_drawingBelow,
      Progress.proceed_go, List.append_assoc, List.map_cons, List.map_flatMap]
    rfl

/-- **The diagram of any descent that ends and meets no stack value** has one line for each
visit. -/
theorem diagram_eq_drawn (h : s.forest.Grounded root)
    (hstack : ∀ m ∈ s.forest.preorder root, s.forest.shape m ≠ .stackValue) :
    s.diagram root = .ok (Drawing.text ⟨(s.forest.lineages [] root).map s.drawn, []⟩) := by
  have hstart : ({} : Drawing) = s.drawingBelow [] [] := rfl
  rw [diagram, h.walk_eq_runEvents, hstart, runEvents_euler h hstack]
  rfl

end Store

/-! ## Depths -/

/-- How many nodes are passed on the way down to a visit. -/
def Lineage.depth (l : Lineage) : Nat := l.above.length

/-- The depths of the visits below a node, in the order of the visits. -/
def Forest.depths (f : Forest) (n : NodeId) : List Nat :=
  (f.lineages [] n).map Lineage.depth

/-- How many children each visit has, read off the depths of all: the visits that follow, as long as
they are deeper, and of these the ones that are deeper by one. -/
def childCounts : List Nat → List Nat
  | [] => []
  | d :: ds => (ds.takeWhile (d < ·)).count (d + 1) :: childCounts ds

namespace Forest

theorem Grounded.depth_eq_or_lt (h : f.Grounded n) (hl : l ∈ f.lineages above n) :
    l = ⟨above, n⟩ ∨ above.length < l.depth := by
  refine (h.prefix_above hl).imp_right fun hprefix => ?_
  have hlength := hprefix.length_le
  rwa [List.length_append, List.length_singleton] at hlength

/-- The depths of the visits below a node, the first of which is its own. -/
theorem Grounded.map_depth_lineages (h : f.Grounded n) (above : List NodeId) :
    (f.lineages above n).map Lineage.depth
      = above.length
        :: ((f.children n).flatMap (f.lineages (above ++ [n]))).map Lineage.depth := by
  rw [h.lineages_eq, List.map_cons]
  rfl

/-- Below a node all depths are greater. -/
theorem Grounded.lt_depth (h : f.Grounded n) (above : List NodeId) :
    ∀ d ∈ ((f.children n).flatMap (f.lineages (above ++ [n]))).map Lineage.depth,
      above.length < d := by
  intro d hd
  obtain ⟨l, hl, rfl⟩ := List.mem_map.mp hd
  obtain ⟨c, hc, hl⟩ := List.mem_flatMap.mp hl
  have hlength : (above ++ [n]).length = above.length + 1 := List.length_append
  rcases (h.child hc).depth_eq_or_lt hl with rfl | hlt
  · exact Nat.lt_of_lt_of_eq (Nat.lt_succ_self _) hlength.symm
  · omega

/-- The depth of a node is the one of a single visit below it, its own. -/
theorem Grounded.count_depth (h : f.Grounded n) (above : List NodeId) :
    ((f.lineages above n).map Lineage.depth).count above.length = 1 := by
  rw [h.map_depth_lineages, List.count_cons_self, List.count_eq_zero.mpr]
  exact fun hmem => absurd (h.lt_depth above _ hmem) (Nat.lt_irrefl _)

/-- Of the depths below several nodes that of the nodes themselves is there once for each. -/
theorem count_depth_flatMap {cs : List NodeId} (hcs : ∀ c ∈ cs, f.Grounded c)
    (above : List NodeId) :
    ((cs.flatMap (f.lineages above)).map Lineage.depth).count above.length = cs.length := by
  induction cs with
  | nil => rfl
  | cons c cs ih =>
    obtain ⟨hc, hcs⟩ := List.forall_mem_cons.mp hcs
    rw [List.flatMap_cons, List.map_append, List.count_append, hc.count_depth, ih hcs,
      List.length_cons, Nat.add_comm]

/-- No deeper visit follows at once on the lineages below a way down. -/
theorem head?_depths_le {cs : List NodeId} (hcs : ∀ c ∈ cs, f.Grounded c) {rest : List Nat}
    (hrest : ∀ d ∈ rest.head?, d ≤ above.length) :
    ∀ d ∈ ((cs.flatMap (f.lineages above)).map Lineage.depth ++ rest).head?, d ≤ above.length := by
  cases cs with
  | nil => exact hrest
  | cons c cs =>
    rw [List.flatMap_cons, List.map_append, (hcs c List.mem_cons_self).map_depth_lineages]
    rintro d ⟨rfl⟩
    exact Nat.le_refl _

/-- The visits below a node are those that follow it as long as they are deeper. -/
theorem Grounded.takeWhile_depths (h : f.Grounded n) {rest : List Nat}
    (hrest : ∀ d ∈ rest.head?, d ≤ above.length) :
    (((f.children n).flatMap (f.lineages (above ++ [n]))).map Lineage.depth ++ rest).takeWhile
        (above.length < ·)
      = ((f.children n).flatMap (f.lineages (above ++ [n]))).map Lineage.depth := by
  have hstop : rest.takeWhile (above.length < ·) = [] := by
    cases rest with
    | nil => rfl
    | cons d rest =>
      exact List.takeWhile_cons_of_neg (by simpa using hrest d rfl)
  rw [List.takeWhile_append_of_pos fun d hd => decide_eq_true (h.lt_depth above d hd), hstop,
    List.append_nil]

/-- Whether the numbers of children below a node, for a way down to it, can be read off the depths
of its visits when no deeper ones follow. -/
def Tallied (f : Forest) (above : List NodeId) (n : NodeId) : Prop :=
  ∀ rest : List Nat, (∀ d ∈ rest.head?, d ≤ above.length) →
    childCounts ((f.lineages above n).map Lineage.depth ++ rest)
      = (f.preorder n).map (fun m => (f.children m).length) ++ childCounts rest

/-- What can be read off for several nodes can be read off for all of them in a row. -/
theorem childCounts_flatMap {cs : List NodeId} (hcs : ∀ c ∈ cs, f.Grounded c)
    (htallied : ∀ c ∈ cs, f.Tallied above c) {rest : List Nat}
    (hrest : ∀ d ∈ rest.head?, d ≤ above.length) :
    childCounts ((cs.flatMap (f.lineages above)).map Lineage.depth ++ rest)
      = (cs.flatMap f.preorder).map (fun m => (f.children m).length) ++ childCounts rest := by
  induction cs with
  | nil => rfl
  | cons c cs ih =>
    obtain ⟨-, hcs⟩ := List.forall_mem_cons.mp hcs
    obtain ⟨hc, htallied⟩ := List.forall_mem_cons.mp htallied
    rw [List.flatMap_cons, List.map_append, List.append_assoc, hc _ (head?_depths_le hcs hrest),
      ih hcs htallied, List.flatMap_cons, List.map_append, List.append_assoc]

/-- **The numbers of children can be read off the depths**, when no deeper visits follow. -/
theorem Grounded.tallied (h : f.Grounded n) : f.Tallied above n := by
  induction h generalizing above with
  | @intro n children ih =>
    intro rest hrest
    have hn := Grounded.intro children
    have hbelow : (above ++ [n]).length = above.length + 1 := List.length_append
    have hcount := count_depth_flatMap children (above ++ [n])
    rw [hbelow] at hcount
    have hinner := childCounts_flatMap children (fun c hc => ih c hc) fun d hd =>
      (hrest d hd).trans (hbelow ▸ Nat.le_succ _ : above.length ≤ (above ++ [n]).length)
    rw [hn.map_depth_lineages, hn.preorder_eq, List.map_cons, List.cons_append, List.cons_append,
      childCounts, hn.takeWhile_depths hrest, hcount, hinner]

/-- **The depths of the visits determine the number of children of every node visited.** -/
theorem Grounded.childCounts_depths (h : f.Grounded n) :
    childCounts (f.depths n) = (f.preorder n).map fun m => (f.children m).length := by
  have hcounts : childCounts (f.depths n ++ []) = _ ++ childCounts [] :=
    h.tallied [] (by simp)
  rwa [List.append_nil, childCounts, List.append_nil] at hcounts

end Forest

end ProbeScript
