import ProbeScript.Proofs.Dump.Drawn
import ProbeScript.Proofs.Dump.Legible

/-!
# Proofs/Dump/Determined — a diagram determines the tree it is drawn of

A diagram can be taken apart again.  Its lines are what stands between line ends, since no line has
one in it.  The groups of four characters a line begins with are rails up to the mark, which tells
itself from a rail by its second character, so names that look like rails do no harm
(`rails_inj`).  The number of rails is the depth of a visit, what follows the mark is the line of
the node, and its last bracket begins the note with the kind.
-/

namespace ProbeScript

open Forest

/-! ## Lists that agree place by place -/

/-- What is determined by another thing at each place agrees where that agrees. -/
theorem map_eq_map_of_forall {α β γ δ : Type} {f : α → γ} {f' : β → γ} {g : α → δ} {g' : β → δ} :
    ∀ {as : List α} {bs : List β}, as.map f = bs.map f' →
      (∀ a ∈ as, ∀ b ∈ bs, f a = f' b → g a = g' b) → as.map g = bs.map g'
  | [], [], _, _ => rfl
  | [], _ :: _, h, _ => nomatch h
  | _ :: _, [], h, _ => nomatch h
  | a :: as, b :: bs, h, hdetermined => by
    obtain ⟨hab, h⟩ := List.cons.inj h
    rw [List.map_cons, List.map_cons, hdetermined a List.mem_cons_self b List.mem_cons_self hab,
      map_eq_map_of_forall h fun a ha b hb =>
        hdetermined a (List.mem_cons_of_mem _ ha) b (List.mem_cons_of_mem _ hb)]

/-! ## Taking a text apart into lines -/

/-- **Lines without line ends can be read off the text they are written to.** -/
theorem lines_inj : ∀ {ls ls' : List String}, (∀ l ∈ ls, '\n' ∉ l.toList) →
    (∀ l ∈ ls', '\n' ∉ l.toList) →
    (ls.flatMap fun l => l.toList ++ ['\n']) = (ls'.flatMap fun l => l.toList ++ ['\n']) → ls = ls'
  | [], [], _, _, _ => rfl
  | [], l :: ls, _, _, h => by simp at h
  | l :: ls, [], _, _, h => by simp at h
  | l :: ls, l' :: ls', hls, hls', h => by
    obtain ⟨hl, hls⟩ := List.forall_mem_cons.mp hls
    obtain ⟨hl', hls'⟩ := List.forall_mem_cons.mp hls'
    rw [List.flatMap_cons, List.flatMap_cons, List.append_assoc, List.append_assoc] at h
    obtain ⟨hline, hrest⟩ := append_cons_inj_of_notMem_left hl hl' h
    rw [String.toList_inj.mp hline, lines_inj hls hls' hrest]

theorem Drawing.toList_text (d : Drawing) :
    d.text.toList = ("ast:" :: d.lines).flatMap fun l => l.toList ++ ['\n'] := by
  rw [text, String.toList_join, List.flatMap_map]
  exact List.flatMap_congr fun l _ => String.toList_append

/-! ## Taking a line apart -/

/-- The characters of a rail. -/
def railGroup (goesOn : Bool) : List Char :=
  (if goesOn then '|' else ' ') :: [' ', ' ', ' ']

/-- The characters of a mark. -/
def markGroup (goesOn : Bool) : List Char :=
  (if goesOn then '|' else '`') :: ['-', '>', ' ']

theorem railGroup_injective {a b : Bool} (h : railGroup a = railGroup b) : a = b := by
  revert a b
  decide

/-- No rail looks like a mark: they differ in the second character. -/
theorem railGroup_append_ne (a b : Bool) (cs ds : List Char) :
    railGroup a ++ cs ≠ markGroup b ++ ds := fun h =>
  absurd (List.cons.inj (List.cons.inj h).2).1 (by decide)

/-- **Rails, mark and line can be read off what is drawn.** -/
theorem rails_inj {a b : Bool} {line line' : List Char} :
    ∀ {rails rails' : List Bool},
      rails.flatMap railGroup ++ (markGroup a ++ line)
        = rails'.flatMap railGroup ++ (markGroup b ++ line') →
      rails = rails' ∧ line = line'
  | [], [], h => by
    have hline : markGroup a ++ line = markGroup b ++ line' := h
    exact ⟨rfl, (List.append_inj hline rfl).2⟩
  | [], _ :: _, h => by
    rw [List.flatMap_cons, List.append_assoc] at h
    exact (railGroup_append_ne _ _ _ _ h.symm).elim
  | _ :: _, [], h => by
    rw [List.flatMap_cons, List.append_assoc] at h
    exact (railGroup_append_ne _ _ _ _ h).elim
  | rail :: rails, rail' :: rails', h => by
    rw [List.flatMap_cons, List.flatMap_cons, List.append_assoc, List.append_assoc] at h
    obtain ⟨hgroup, hrest⟩ := List.append_inj h rfl
    obtain ⟨hrails, hline⟩ := rails_inj hrest
    exact ⟨by rw [railGroup_injective hgroup, hrails], hline⟩

theorem toList_railText (rails : List Bool) :
    (Drawing.railText rails).toList = rails.flatMap railGroup := by
  rw [Drawing.railText, String.toList_join, List.flatMap_map]
  refine List.flatMap_congr fun goesOn _ => ?_
  cases goesOn <;> rfl

namespace Store

variable {s t : Store} {root : NodeId}

theorem toList_drawn (s : Store) (l : Lineage) :
    (s.drawn l).toList = (s.forest.railsAlong l.above).flatMap railGroup
      ++ (markGroup (s.forest.railBelow (s.forest.railsAlong l.above) l.node)
        ++ (s.ledger.lineText s.forest l.node).toList) := by
  refine (toList_append₄ ..).trans ?_
  rw [toList_railText]
  refine congrArg _ ?_
  cases s.forest.railBelow (s.forest.railsAlong l.above) l.node <;> rfl

/-- **What is drawn of a visit tells its depth and the line of its node.** -/
theorem drawn_inj {l k : Lineage} (h : s.drawn l = t.drawn k) :
    l.depth = k.depth ∧
      s.ledger.lineText s.forest l.node = t.ledger.lineText t.forest k.node := by
  have hlist := congrArg String.toList h
  rw [toList_drawn, toList_drawn] at hlist
  obtain ⟨hrails, hline⟩ := rails_inj hlist
  refine ⟨?_, String.toList_inj.mp hline⟩
  rw [Lineage.depth, Lineage.depth, ← length_railsAlong s.forest, hrails, length_railsAlong]

/-! ## Trees that can be drawn -/

/-- A tree that can be drawn in lines: the descent ends, there is a line for each node visited, and
no text shown as it is has a line end. -/
structure Legible (s : Store) (root : NodeId) : Prop where
  grounded : s.forest.Grounded root
  ne_stackValue : ∀ n ∈ s.forest.preorder root, s.forest.shape n ≠ .stackValue
  isOneLine : ∀ n ∈ s.forest.preorder root, (s.forest.shape n).IsOneLine

theorem legible_iff : s.Legible root ↔ s.forest.Grounded root ∧
    (∀ n ∈ s.forest.preorder root, s.forest.shape n ≠ .stackValue) ∧
    ∀ n ∈ s.forest.preorder root, (s.forest.shape n).IsOneLine :=
  ⟨fun h => ⟨h.grounded, h.ne_stackValue, h.isOneLine⟩,
    fun ⟨hground, hstack, hline⟩ => ⟨hground, hstack, hline⟩⟩

instance (s : Store) (root : NodeId) : Decidable (s.Legible root) :=
  decidable_of_iff' _ legible_iff

namespace Legible

theorem node_mem (h : s.Legible root) {l : Lineage} (hl : l ∈ s.forest.lineages [] root) :
    l.node ∈ s.forest.preorder root := by
  rw [← h.grounded.map_node_lineages []]
  exact List.mem_map_of_mem hl

theorem line_eq (h : s.Legible root) {n : NodeId} (hn : n ∈ s.forest.preorder root) :
    s.ledger.line s.forest n = .ok (s.ledger.lineText s.forest n) :=
  s.ledger.line_eq_lineText (h.ne_stackValue n hn)

/-- What is drawn of a visit is one line. -/
theorem newline_notMem_drawn (h : s.Legible root) {l : Lineage}
    (hl : l ∈ s.forest.lineages [] root) : '\n' ∉ (s.drawn l).toList := by
  have hn := h.node_mem hl
  have hline := Ledger.newline_notMem_line (h.isOneLine _ hn) (h.line_eq hn)
  have hrail (goesOn : Bool) : '\n' ∉ railGroup goesOn := by cases goesOn <;> decide
  have hmark (goesOn : Bool) : '\n' ∉ markGroup goesOn := by cases goesOn <;> decide
  rw [toList_drawn, List.mem_append, List.mem_append, List.mem_flatMap, not_or, not_or]
  exact ⟨fun ⟨goesOn, _, hmem⟩ => hrail goesOn hmem, hmark _, hline⟩

theorem newline_notMem_lines (h : s.Legible root) :
    ∀ line ∈ "ast:" :: (s.forest.lineages [] root).map s.drawn, '\n' ∉ line.toList :=
  List.forall_mem_cons.mpr
    ⟨by decide, List.forall_mem_map.mpr fun _ hl => h.newline_notMem_drawn hl⟩

end Legible

/-! ## The tree of a diagram -/

/-- **A diagram determines the tree it is drawn of.**  Two trees with one diagram have equally many
visits, and at each place in the order of the visits the same depth, as many children, the same line
and the same kind; which nodes the visits are to, and whether some are to the same node, does not
show. -/
theorem diagram_determines_tree {m n : NodeId} (hs : s.Legible m) (ht : t.Legible n)
    (h : s.diagram m = t.diagram n) :
    (∃ text, s.diagram m = .ok text ∧ t.diagram n = .ok text) ∧
    (s.forest.preorder m).length = (t.forest.preorder n).length ∧
    s.forest.depths m = t.forest.depths n ∧
    (s.forest.preorder m).map (fun k => (s.forest.children k).length)
      = (t.forest.preorder n).map (fun k => (t.forest.children k).length) ∧
    (s.forest.preorder m).map (s.ledger.line s.forest)
      = (t.forest.preorder n).map (t.ledger.line t.forest) ∧
    (s.forest.preorder m).map s.forest.kind = (t.forest.preorder n).map t.forest.kind := by
  have hsdraws := diagram_eq_drawn hs.grounded hs.ne_stackValue
  have htdraws := diagram_eq_drawn ht.grounded ht.ne_stackValue
  have hdrawn : (s.forest.lineages [] m).map s.drawn = (t.forest.lineages [] n).map t.drawn := by
    have htext := congrArg String.toList (Except.ok.inj (hsdraws.symm.trans (h.trans htdraws)))
    rw [Drawing.toList_text, Drawing.toList_text] at htext
    exact (List.cons.inj (lines_inj hs.newline_notMem_lines ht.newline_notMem_lines htext)).2
  have hdepths : s.forest.depths m = t.forest.depths n :=
    map_eq_map_of_forall hdrawn fun _ _ _ _ h => (drawn_inj h).1
  have hlines : (s.forest.preorder m).map (s.ledger.line s.forest)
      = (t.forest.preorder n).map (t.ledger.line t.forest) := by
    rw [← hs.grounded.map_node_lineages [], ← ht.grounded.map_node_lineages [], List.map_map,
      List.map_map]
    refine map_eq_map_of_forall hdrawn fun l hl k hk h => ?_
    rw [Function.comp_apply, Function.comp_apply, hs.line_eq (hs.node_mem hl),
      ht.line_eq (ht.node_mem hk), (drawn_inj h).2]
  have hkinds : (s.forest.preorder m).map s.forest.kind
      = (t.forest.preorder n).map t.forest.kind := by
    refine map_eq_map_of_forall hlines fun k hk k' hk' h => ?_
    rw [hs.line_eq hk] at h
    exact Ledger.kind_eq_of_line_eq (hs.line_eq hk) h.symm
  refine ⟨⟨_, hsdraws, h.symm.trans hsdraws⟩, ?_, hdepths, ?_, hlines, hkinds⟩
  · simpa only [List.length_map] using congrArg List.length hkinds
  · rw [← hs.grounded.childCounts_depths, ← ht.grounded.childCounts_depths, hdepths]

/-- A call in a probe, with a string literal that could be taken for a line. -/
def callInProbe (module function : String) (before : List Step) : Workshop :=
  let arg := before.length
  (before ++ [Step.construct (.str "\n|-> y"), .construct (.call (some module) function (some arg)),
    .construct (.probe "timer:tick" none (some (arg + 1)))]).foldl
      (fun w step => (w.step step).2) {}

/-- Where the name of the module ends does not show, but it is a call all the same. -/
theorem diagram_determines_tree_of_calls :
    let s := callInProbe "a.b" "c" []
    let t := callInProbe "a" "b.c" [.construct .breakLoop]
    s.toStore.Legible 2 ∧ t.toStore.Legible 3 ∧ s.diagram 2 = t.diagram 3 ∧
      s.forest.shape 1 ≠ t.forest.shape 2 ∧
      (∃ text, s.diagram 2 = .ok text) ∧ s.forest.depths 2 = t.forest.depths 3 ∧
      (s.forest.preorder 2).map s.forest.kind = (t.forest.preorder 3).map t.forest.kind := by
  intro s t
  have hs : s.toStore.Legible 2 := by decide
  have ht : t.toStore.Legible 3 := by decide
  have hdiagram : s.diagram 2 = t.diagram 3 := by decide +kernel
  obtain ⟨⟨text, htext, -⟩, -, hdepths, -, -, hkinds⟩ := diagram_determines_tree hs ht hdiagram
  exact ⟨hs, ht, hdiagram, by decide, ⟨text, htext⟩, hdepths, hkinds⟩

end Store

end ProbeScript
