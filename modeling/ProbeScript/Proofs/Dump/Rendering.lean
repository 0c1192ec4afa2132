import ProbeScript.Proofs.Forest.Lineage
import ProbeScript.Proofs.Forest.Subtree
import ProbeScript.Workshop.Step

/-!
# Proofs/Dump/Rendering — a diagram is what the shape of its tree says

The rendering of a subtree is one entry per visit, with a group of rails for each node above and a
mark for the node itself; each of these is read off the place of a node among its parent's children.
A walk draws the same entries from the rails it has open (`draws_euler`), and a rail is
open just where a later line hangs on it (`hasLater_iff_exists_later`).
-/

namespace ProbeScript

open Forest

variable {f : Forest} {root n : NodeId} {above : List NodeId} {l : Lineage}

/-- Only stack values cannot be shown in a line. -/
theorem Ledger.exists_line (ledger : Ledger) (h : f.shape n ≠ .stackValue) :
    ∃ line, ledger.line f n = .ok line := by
  have hsummary : ∃ summary, (f.shape n).summary = .ok summary := by
    cases hshape : f.shape n with
    | stackValue => exact absurd hshape h
    | _ => exact ⟨_, rfl⟩
  obtain ⟨summary, hsummary⟩ := hsummary
  exact ⟨_, by rw [line, hsummary]; rfl⟩

namespace Store

/-- The entry of a visit below a root: four characters for each node above it, a mark, and the line
of the node. -/
def entry (s : Store) (root : NodeId) (l : Lineage) : Except Fault String :=
  (s.ledger.line s.forest l.node).map fun line =>
    String.join (l.above.map fun a => if s.forest.hasLater root a then "|   " else "    ")
      ++ (if s.forest.hasLater root l.node then "|-> " else "`-> ") ++ line

/-- The rendering of the subtree below a node: a heading and the entries of all visits, joined by
line ends, with one more at the end. -/
def rendering (s : Store) (root : NodeId) : Except Fault String :=
  ((s.forest.lineages [] root).mapM (s.entry root)).map fun entries =>
    String.intercalate "\n" ("ast:" :: entries) ++ "\n"

end Store

/-! ## A walk draws the entries -/

namespace Forest

/-- A visit below a root is at the root, with nothing above it, or right below a node visited. -/
def Placed (f : Forest) (root : NodeId) (above : List NodeId) (n : NodeId) : Prop :=
  above = [] ∧ n = root ∨ above ≠ [] ∧ ∃ p ∈ f.preorder root, n ∈ f.children p

theorem Placed.mem_preorder (h : f.Grounded root) (hplace : f.Placed root above n) :
    n ∈ f.preorder root := by
  rcases hplace with ⟨-, rfl⟩ | ⟨-, p, hp, hn⟩
  · exact h.mem_preorder
  · exact h.preorder_subset_of_mem hp ((h.of_mem hp).children_subset hn)

theorem Placed.child (h : f.Grounded root) (hplace : f.Placed root above n) {c : NodeId}
    (hc : c ∈ f.children n) : f.Placed root (above ++ [n]) c :=
  .inr ⟨List.append_ne_nil_of_right_ne_nil _ (List.cons_ne_nil _ _), n, hplace.mem_preorder h, hc⟩

/-- **Below a rail a node is followed, just when it is not the last of its parent's children.** -/
theorem Placed.isFollowed_eq (h : f.Subtree root) (hplace : f.Placed root above n) :
    (!(above.map (f.hasLater root)).isEmpty && f.isFollowed n) = f.hasLater root n := by
  rcases hplace with ⟨rfl, rfl⟩ | ⟨habove, p, hp, hn⟩
  · simp [hasLater]
  · obtain ⟨before, after, hsplit⟩ := List.append_of_mem hn
    have hempty : (above.map (f.hasLater root)).isEmpty = false := by simpa using habove
    rw [hempty, Bool.not_false, Bool.true_and, Bool.eq_iff_iff, h.hasLater_iff hp hsplit,
      (h.of_mem hp).isFollowed_iff hsplit]

end Forest

namespace Store

variable {s : Store}

/-- Below the rails of the nodes above, running events draws the entries of visits, one after the
other, and leaves the rails as they were. -/
def Draws (s : Store) (root : NodeId) (above : List NodeId) (ls : List Lineage)
    (es : List Event) : Prop :=
  ∀ d : Drawing, d.rails = above.map (s.forest.hasLater root) →
    ∃ entries, ls.mapM (s.entry root) = .ok entries ∧
      runEvents (some (Drawing.enter s.forest s.ledger)) (some Drawing.leave) es d
        = (.ok 0, { d with lines := d.lines ++ entries })

namespace Draws

variable {ls ls' : List Lineage} {es es' : List Event}

theorem nil : s.Draws root above [] [] :=
  fun d _ => ⟨[], rfl, by rw [List.append_nil]; rfl⟩

theorem append (h : s.Draws root above ls es) (h' : s.Draws root above ls' es') :
    s.Draws root above (ls ++ ls') (es ++ es') := by
  intro d hrails
  obtain ⟨entries, hentries, hrun⟩ := h d hrails
  obtain ⟨entries', hentries', hrun'⟩ := h' { d with lines := d.lines ++ entries } hrails
  refine ⟨entries ++ entries', ?_, ?_⟩
  · rw [List.mapM_append, hentries, hentries']
    rfl
  · rw [runEvents_append, hrun, Progress.proceed_go, hrun', List.append_assoc]

theorem flatMap {cs : List NodeId} {g : NodeId → List Lineage} {k : NodeId → List Event}
    (h : ∀ c ∈ cs, s.Draws root above (g c) (k c)) :
    s.Draws root above (cs.flatMap g) (cs.flatMap k) := by
  induction cs with
  | nil => exact nil
  | cons c cs ih =>
    rw [List.flatMap_cons, List.flatMap_cons]
    exact (h c List.mem_cons_self).append (ih fun d hd => h d (List.mem_cons_of_mem c hd))

/-- **A node draws its entry, and below its own rail what is drawn there.** -/
theorem node (h : s.forest.Subtree root) (hplace : s.forest.Placed root above n) {line : String}
    (hline : s.ledger.line s.forest n = .ok line) (hinner : s.Draws root (above ++ [n]) ls es) :
    s.Draws root above (⟨above, n⟩ :: ls) (.enter n :: es ++ [.leave n]) := by
  intro d hrails
  let entry := Drawing.railText d.rails
    ++ (if s.forest.hasLater root n then "|" else "`") ++ "-> " ++ line
  have hentry : s.entry root ⟨above, n⟩ = .ok entry := by
    rw [Store.entry, hline]
    simp only [entry, hrails, Drawing.railText, List.map_map, Except.map]
    cases s.forest.hasLater root n <;> simp [Function.comp_def, String.append_assoc]
  have henter : Drawing.enter s.forest s.ledger n d
      = (.ok 0, ⟨d.lines ++ [entry], (above ++ [n]).map (s.forest.hasLater root)⟩) := by
    have hgoes := hplace.isFollowed_eq h
    rw [← hrails] at hgoes
    rw [Drawing.enter, hline, hgoes, List.map_append, ← hrails]
    rfl
  have hleave (lines : List String) : Drawing.leave n
      ⟨lines, (above ++ [n]).map (s.forest.hasLater root)⟩ = (.ok 0, ⟨lines, d.rails⟩) := by
    rw [Drawing.leave, List.map_append, List.map_singleton, List.dropLast_concat, hrails]
  obtain ⟨entries, hentries, hrun⟩ :=
    hinner ⟨d.lines ++ [entry], (above ++ [n]).map (s.forest.hasLater root)⟩ rfl
  refine ⟨entry :: entries, ?_, ?_⟩
  · rw [List.mapM_cons, hentry, hentries]
    rfl
  · rw [List.cons_append, runEvents, Event.run, Visitor.run, henter, Progress.proceed_go,
      runEvents_append, hrun, Progress.proceed_go, runEvents, Event.run, Visitor.run, hleave,
      Progress.proceed_go, List.append_assoc]
    rfl

end Draws

/-- **The walk over a subtree draws the entries of its visits.** -/
theorem draws_euler (h : s.forest.Subtree root)
    (hlines : ∀ n ∈ s.forest.preorder root, ∃ line, s.ledger.line s.forest n = .ok line)
    (hground : s.forest.Grounded n) (hplace : s.forest.Placed root above n) :
    s.Draws root above (s.forest.lineages above n) (s.forest.euler n) := by
  induction hground generalizing above with
  | @intro n children ih =>
    have hn := Grounded.intro children
    obtain ⟨line, hline⟩ := hlines n (hplace.mem_preorder h.grounded)
    rw [hn.lineages_eq, hn.euler_eq]
    exact .node h hplace hline (.flatMap fun c hc => ih c hc (hplace.child h.grounded hc))

/-- Joining lines by line ends and ending the last is ending each. -/
theorem intercalate_lines (line : String) (lines : List String) :
    String.intercalate "\n" (line :: lines) ++ "\n"
      = String.join ((line :: lines).map fun line => line ++ "\n") := by
  induction lines generalizing line with
  | nil => simp
  | cons next lines ih =>
    rw [String.intercalate_cons_cons, String.append_assoc, ih]
    simp only [List.map_cons, String.join_cons]

end Store

/-! ## A rail is open where a later line hangs on it -/

/-- Where an element stands in a list put together from others, and what comes after it. -/
theorem exists_of_flatMap_eq {α β : Type} {g : α → List β} {x : β} :
    ∀ {as : List α} {before after : List β}, as.flatMap g = before ++ x :: after →
      ∃ before' a after' first rest, as = before' ++ a :: after' ∧ g a = first ++ x :: rest ∧
        after = rest ++ after'.flatMap g
  | [], before, after, h =>
    absurd h.symm (List.append_ne_nil_of_right_ne_nil _ (List.cons_ne_nil x after))
  | a :: as, before, after, h => by
    rw [List.flatMap_cons] at h
    rcases List.append_eq_append_iff.mp h with ⟨others, -, h⟩ | ⟨others, hfirst, h⟩
    · obtain ⟨before', a', after', first, rest, rfl, hg, rfl⟩ := exists_of_flatMap_eq h
      exact ⟨a :: before', a', after', first, rest, rfl, hg, rfl⟩
    · cases others with
      | nil =>
        obtain ⟨before', a', after', first, rest, rfl, hg, rfl⟩ :=
          exists_of_flatMap_eq (show as.flatMap g = [] ++ x :: after from h.symm)
        exact ⟨a :: before', a', after', first, rest, rfl, hg, rfl⟩
      | cons y rest =>
        obtain ⟨rfl, rfl⟩ := List.cons.inj h
        exact ⟨[], a, as, before, rest, rfl, hfirst, rfl⟩

namespace Forest

/-- Two paths that a third one begins with are the same if they are equally long. -/
theorem concat_inj_of_common {ns ms ks : List NodeId} {a b : NodeId} (ha : ns ++ [a] <+: ks)
    (hb : ms ++ [b] <+: ks) (hlength : ns.length = ms.length) : ns = ms ∧ a = b := by
  have hlen : (ns ++ [a]).length = (ms ++ [b]).length := by simp [hlength]
  have heq := (List.prefix_of_prefix_length_le ha hb (Nat.le_of_eq hlen)).eq_of_length hlen
  obtain ⟨hns, hab⟩ := List.append_inj' heq rfl
  exact ⟨hns, List.head_eq_of_cons_eq hab⟩

theorem concat_prefix_of_lt {ns ms ks : List NodeId} {a : NodeId} (h : ns ++ [a] <+: ms ++ ks)
    (hlength : ns.length < ms.length) : ns ++ [a] <+: ms :=
  List.prefix_of_prefix_length_le h (List.prefix_append ms ks) <| by
    rw [List.length_append, List.length_singleton]
    exact Nat.succ_le_of_lt hlength

/-- Two lines below the same path hang on one rail further down only if they are below the same
child. -/
theorem Grounded.eq_of_common_path {base path rest : List NodeId} {c d a : NodeId} {l l' : Lineage}
    (hc : f.Grounded c) (hd : f.Grounded d) (hl : l ∈ f.lineages base c)
    (hl' : l' ∈ f.lineages base d) (hpath : l.path = path ++ a :: rest) (habove : l'.above = path)
    (hlength : base.length < path.length) : c = d := by
  have hthrough := hc.prefix_path hl
  have hother := hd.prefix_path hl'
  rw [hpath] at hthrough
  rw [Lineage.path, habove] at hother
  exact (concat_inj_of_common (concat_prefix_of_lt hthrough hlength)
    (concat_prefix_of_lt hother hlength) rfl).2

/-- The rail that a child hangs on is open below it just when another child follows. -/
theorem Subtree.hasLater_child_iff (h : f.Subtree root) (hn : n ∈ f.preorder root)
    {base before after : List NodeId} {c : NodeId} {first rest : List Lineage} {l : Lineage}
    (hchildren : f.children n = before ++ c :: after)
    (hlineages : f.lineages base c = first ++ l :: rest) :
    f.hasLater root c = true ↔
      ∃ l' ∈ rest ++ after.flatMap (f.lineages base), l'.above = base := by
  have hgrounded : ∀ d ∈ c :: after, f.Grounded d := fun d hd =>
    (h.of_mem hn).grounded.child (hchildren ▸ List.mem_append_right _ hd)
  rw [h.hasLater_iff hn hchildren]
  constructor
  · intro hafter
    obtain ⟨d, after, rfl⟩ := List.exists_cons_of_ne_nil hafter
    refine ⟨⟨base, d⟩, List.mem_append_right _ ?_, rfl⟩
    rw [List.flatMap_cons, (hgrounded d (List.mem_cons_of_mem c List.mem_cons_self)).lineages_eq]
    exact List.mem_append_left _ List.mem_cons_self
  · rintro ⟨l', hl', habove⟩ rfl
    have hbelow := (hgrounded c List.mem_cons_self).prefix_above_of_later hlineages
      ((List.mem_append.mp hl').resolve_right List.not_mem_nil)
    have hlen := hbelow.length_le
    rw [habove, List.length_append, List.length_singleton] at hlen
    omega

/-- **Below a node of a subtree, a rail is open just when a later line hangs on it.** -/
theorem Subtree.hasLater_iff_exists_later (h : f.Subtree root) (hground : f.Grounded n)
    (hn : n ∈ f.preorder root) :
    ∀ {base : List NodeId} {before after : List Lineage} {l : Lineage},
      f.lineages base n = before ++ l :: after → ∀ {path rest : List NodeId} {a : NodeId},
        l.path = path ++ a :: rest → base.length < path.length →
        (f.hasLater root a = true ↔ ∃ l' ∈ after, l'.above = path) := by
  induction hground with
  | @intro n children ih =>
    intro base before after l hsplit path rest a hpath hlength
    have hground := Grounded.intro children
    rw [hground.lineages_eq] at hsplit
    cases before with
    | nil =>
      obtain ⟨rfl, rfl⟩ := List.cons.inj hsplit
      have hlen := congrArg List.length hpath
      simp only [Lineage.path, List.length_append, List.length_cons, List.length_nil] at hlen
      omega
    | cons first before =>
      -- The line is drawn below a child `c`; the later ones are those below `c` and below `ds`.
      obtain ⟨cs, c, ds, before, later, hchildren, hlineages, rfl⟩ :=
        exists_of_flatMap_eq (List.cons.inj hsplit).2
      have hc : c ∈ f.children n := hchildren ▸ List.mem_append_right _ List.mem_cons_self
      have hl : l ∈ f.lineages (base ++ [n]) c :=
        hlineages ▸ List.mem_append_right _ List.mem_cons_self
      have hbase : (base ++ [n]).length = base.length + 1 := List.length_append
      rcases Nat.lt_or_eq_of_le (Nat.succ_le_of_lt hlength) with hlength | hlength
      · -- The rail is one further down, and nothing below `ds` hangs on it.
        rw [← Nat.add_one, ← hbase] at hlength
        have hcroot := h.grounded.preorder_subset_of_mem hn (hground.children_subset hc)
        rw [ih c hc hcroot hlineages hpath hlength]
        refine ⟨fun ⟨l', hl', habove⟩ => ⟨l', List.mem_append_left _ hl', habove⟩, ?_⟩
        rintro ⟨l', hl', habove⟩
        refine ⟨l', (List.mem_append.mp hl').resolve_right fun hl' => ?_, habove⟩
        obtain ⟨d, hd, hl'⟩ := List.mem_flatMap.mp hl'
        have hdchild : d ∈ f.children n :=
          hchildren ▸ List.mem_append_right _ (List.mem_cons_of_mem c hd)
        obtain rfl := (children c hc).eq_of_common_path (children d hdchild) hl hl' hpath habove
          hlength
        have hnodup := (h.of_mem hn).nodup_children
        rw [hchildren, List.nodup_middle, List.nodup_cons] at hnodup
        exact hnodup.1 (List.mem_append_right _ hd)
      · -- The rail is the one that `c` itself hangs on.
        rw [← Nat.add_one, ← hbase] at hlength
        have hthrough := (children c hc).prefix_path hl
        have hasked : path ++ [a] <+: path ++ a :: rest :=
          ⟨rest, by rw [List.append_assoc, List.singleton_append]⟩
        rw [hpath] at hthrough
        obtain ⟨rfl, rfl⟩ := concat_inj_of_common hthrough hasked hlength
        exact h.hasLater_child_iff hn hchildren hlineages

end Forest

/-! ## The diagram -/

namespace Store

/-- **The diagram of a well-formed subtree without stack values is its rendering**, which has one
entry for each visit, in the order of the visits; the nodes above a visit are its parent, the parent
of that and so on up to the root.  A rail is open in a line just when a later line hangs on it. -/
theorem diagram_eq_rendering (s : Store) (h : s.forest.Subtree root)
    (hstack : ∀ n ∈ s.forest.preorder root, s.forest.shape n ≠ .stackValue) :
    (∃ text, s.rendering root = .ok text ∧ s.diagram root = .ok text) ∧
    (s.forest.lineages [] root).map Lineage.node = s.forest.preorder root ∧
    (∀ l ∈ s.forest.lineages [] root, [root] <+: l.path ∧
      l.path.IsChain fun p c => s.forest.parent c = some p) ∧
    ∀ {before after : List Lineage} {l : Lineage},
      s.forest.lineages [] root = before ++ l :: after →
      ∀ {path rest : List NodeId} {a : NodeId}, l.path = path ++ a :: rest →
        (s.forest.hasLater root a = true ↔ ∃ l' ∈ after, l'.above = path) := by
  have hground := h.grounded
  refine ⟨?_, hground.map_node_lineages [], fun l hl => ⟨hground.prefix_path hl,
    hground.isChain_path h.parent_eq (List.isChain_singleton root) hl⟩, ?_⟩
  · obtain ⟨entries, hentries, hrun⟩ := draws_euler h
      (fun n hn => s.ledger.exists_line (hstack n hn)) hground (.inl ⟨rfl, rfl⟩) {} rfl
    refine ⟨_, by rw [rendering, hentries]; rfl, ?_⟩
    rw [diagram, hground.walk_eq_runEvents, hrun]
    exact congrArg Except.ok (intercalate_lines "ast:" entries).symm
  · intro before after l hsplit path rest a hpath
    have hl : l ∈ s.forest.lineages [] root :=
      hsplit ▸ List.mem_append_right _ List.mem_cons_self
    cases path with
    | cons first path =>
      exact h.hasLater_iff_exists_later hground hground.mem_preorder hsplit hpath
        (Nat.zero_lt_succ _)
    | nil =>
      -- The root hangs on nothing, and every later line hangs on some node.
      have hfirst := hground.prefix_path hl
      rw [hpath] at hfirst
      obtain rfl := (List.cons_prefix_cons.mp hfirst).1
      refine iff_of_false (by simp [hasLater]) ?_
      rintro ⟨l', hl', habove⟩
      have hlater := (hground.prefix_above_of_later hsplit hl').length_le
      rw [habove] at hlater
      exact absurd hlater (Nat.not_succ_le_zero _)

/-- A choice between two statements, as the first of two in a probe. -/
def guarded : Workshop :=
  [Step.construct (.var "x"), .construct (.int (.big 1)), .construct (.binop 0 .eq 1),
    .construct .breakLoop, .construct .returnProbe, .construct (.ifElse 2 (some 3) (some 4)),
    .construct .continueLoop, .link [5, 6], .construct (.probe "timer:tick" none (some 5))].foldl
      (fun w step => (w.step step).2) {}

/-- The rails below the choice do not heed that it has a parent and another statement after it. -/
theorem diagram_eq_rendering_guarded :
    guarded.forest.Subtree 5 ∧
      (∀ n ∈ guarded.forest.preorder 5, guarded.forest.shape n ≠ .stackValue) ∧
      guarded.forest.parent 5 = some 7 ∧ guarded.forest.next 5 = some 6 ∧
      guarded.toStore.rendering 5 = .ok "ast:
`-> <if> (type:if/none size:0x0 loc:nowhere)
    |-> == (type:binop/none size:0x0 loc:nowhere)
    |   |-> x (type:var/none size:0x0 loc:nowhere)
    |   `-> 0x1 (type:int/none size:0x0 loc:nowhere)
    |-> <break> (type:break/none size:0x0 loc:nowhere)
    `-> <return> (type:return/none size:0x0 loc:nowhere)
" := by
  have hsubtree : guarded.forest.Subtree 5 := by decide
  have hstack : ∀ n ∈ guarded.forest.preorder 5, guarded.forest.shape n ≠ .stackValue := by decide
  obtain ⟨⟨text, hrendering, hdiagram⟩, -⟩ := diagram_eq_rendering guarded.toStore hsubtree hstack
  refine ⟨hsubtree, hstack, by decide, by decide, ?_⟩
  rw [hrendering, ← hdiagram]
  decide +kernel

end Store

end ProbeScript
