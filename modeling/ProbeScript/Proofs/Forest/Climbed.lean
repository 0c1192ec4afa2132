import ProbeScript.Forest.Ancestor
import ProbeScript.Proofs.Forest.Lineage
import ProbeScript.Proofs.Forest.Subtree
import ProbeScript.Workshop.Step

/-!
# Proofs/Forest/Climbed — the way up is the way down, read backwards

In a rooted tree every node but the root has for its parent the node it is reached from.  There the
path of a node is the way down to it in reverse (`Rooted.path_eq`), so what is met first on the way
up is what was passed last on the way down.  All that encloses a node can be told from the descent
alone (`climbing_retraces_descent`).
-/

namespace ProbeScript

/-- What is found first from the end of a list is followed by nothing else to be found. -/
theorem find?_reverse_eq_some_iff {α : Type} {p : α → Bool} {l : List α} {a : α} :
    l.reverse.find? p = some a ↔
      ∃ before after, l = before ++ a :: after ∧ p a = true ∧ ∀ b ∈ after, p b = false := by
  rw [List.find?_eq_some_iff_append]
  constructor
  · rintro ⟨ha, after, before, hsplit, hafter⟩
    refine ⟨before.reverse, after.reverse, ?_, ha, fun b hb => ?_⟩
    · rw [← l.reverse_reverse, hsplit]
      simp
    · simpa using hafter b (List.mem_reverse.mp hb)
  · rintro ⟨before, after, rfl, ha, hafter⟩
    refine ⟨ha, after.reverse, before.reverse, by simp, fun b hb => ?_⟩
    simp [hafter b (List.mem_reverse.mp hb)]

namespace Forest

variable {f : Forest} {root n m p : NodeId} {ns above : List NodeId} {l : Lineage} {bound : Nat}

/-- A tree with its parents: the descent from the root ends, the root has no parent, and every other
node has for its parent the node it is reached from. -/
structure Rooted (f : Forest) (root : NodeId) : Prop where
  lt_size : root < f.size
  parent_root : f.parent root = none
  grounded : f.Grounded root
  parent_eq : ∀ p ∈ f.preorder root, ∀ c ∈ f.children p, f.parent c = some p

/-! ## The way up -/

/-- Nodes each of which is the parent of the one before, up to one without parent, are a path. -/
theorem pathUpTo_eq (hns : ns.IsChain fun c p => f.parent c = some p)
    (htop : ∀ m ∈ ns.getLast?, f.parent m = none) (hlength : ns.length ≤ bound) :
    f.pathUpTo bound ns.head? = ns := by
  induction ns generalizing bound with
  | nil => cases bound <;> rfl
  | cons n ns ih =>
    obtain ⟨bound, rfl⟩ := Nat.exists_eq_add_one_of_ne_zero
      (Nat.ne_of_gt (Nat.lt_of_lt_of_le (Nat.zero_lt_succ _) hlength))
    have hparent : f.parent n = ns.head? := by
      cases ns with
      | nil => exact htop n rfl
      | cons p ns => exact (List.isChain_cons_cons.mp hns).1
    have htop' : ∀ m ∈ ns.getLast?, f.parent m = none := fun m hm =>
      htop m (by rw [List.getLast?_cons, Option.mem_def.mp hm]; rfl)
    rw [List.head?_cons, pathUpTo, hparent,
      ih (List.isChain_cons.mp hns).2 htop' (Nat.le_of_succ_le_succ hlength)]

/-- What is passed on a way down from a node is visited from there. -/
theorem Grounded.mem_of_isChain (h : f.Grounded n)
    (hns : (n :: ns).IsChain fun p c => c ∈ f.children p) (hm : m ∈ n :: ns) :
    m ∈ f.preorder n := by
  induction ns generalizing n with
  | nil => exact List.mem_singleton.mp hm ▸ h.mem_preorder
  | cons c ns ih =>
    obtain ⟨hc, hns⟩ := List.isChain_cons_cons.mp hns
    rcases List.mem_cons.mp hm with rfl | hm
    · exact h.mem_preorder
    · exact h.preorder_subset hc (ih (h.child hc) hns hm)

namespace Rooted

/-- A way down begins at the root and leads from each node to one right below it. -/
theorem isChain_children (h : f.Rooted root) (hl : l ∈ f.lineages [] root) :
    l.path.IsChain fun p c => c ∈ f.children p :=
  h.grounded.isChain_path (fun _ _ _ hc => hc) (List.isChain_singleton root) hl

/-- Every step down leads from a parent. -/
theorem isChain_parent (h : f.Rooted root) (hl : l ∈ f.lineages [] root) :
    l.path.IsChain fun p c => f.parent c = some p :=
  h.grounded.isChain_path h.parent_eq (List.isChain_singleton root) hl

theorem exists_path_eq (h : f.Rooted root) (hl : l ∈ f.lineages [] root) :
    ∃ rest, l.path = root :: rest :=
  (h.grounded.prefix_path hl).imp fun _ => Eq.symm

theorem mem_preorder (h : f.Rooted root) (hl : l ∈ f.lineages [] root) (hm : m ∈ l.path) :
    m ∈ f.preorder root := by
  have hchain := h.isChain_children hl
  obtain ⟨rest, hpath⟩ := h.exists_path_eq hl
  rw [hpath] at hchain hm
  exact h.grounded.mem_of_isChain hchain hm

theorem lt_size_of_mem (h : f.Rooted root) (hm : m ∈ f.preorder root) : m < f.size := by
  by_cases hne : m = root
  · exact hne ▸ h.lt_size
  · obtain ⟨p, hp, hmp⟩ := h.grounded.exists_above hm hne
    by_contra hge
    -- A node not in use has no parent.
    have hparent := h.parent_eq p hp m hmp
    rw [parent, f.node_eq_default (Nat.le_of_not_lt hge)] at hparent
    cases hparent

/-- No way down passes a node twice. -/
theorem nodup_path (h : f.Rooted root) (hl : l ∈ f.lineages [] root) : l.path.Nodup := by
  have hbelow : l.path.IsChain fun p c => f.Below c p :=
    (h.isChain_children hl).imp fun _ _ hc => Relation.TransGen.single hc
  have : Trans (fun p c => f.Below c p) (fun p c => f.Below c p) fun p c => f.Below c p :=
    ⟨fun hp hc => hc.trans hp⟩
  refine hbelow.pairwise.imp_of_mem fun {p c} hp _ hc heq => ?_
  exact (h.grounded.of_mem (h.mem_preorder hl hp)).not_below_self (heq ▸ hc)

/-- **The path of a node is the way down to it in reverse.** -/
theorem path_eq (h : f.Rooted root) (hl : l ∈ f.lineages [] root) :
    f.path l.node = l.path.reverse := by
  have htop : ∀ m ∈ l.path.reverse.getLast?, f.parent m = none := by
    obtain ⟨rest, hpath⟩ := h.exists_path_eq hl
    rw [List.getLast?_reverse, hpath]
    rintro m ⟨⟩
    exact h.parent_root
  have hlength : l.path.reverse.length ≤ f.size := by
    have hsub : l.path ⊆ List.range f.size := fun m hm =>
      List.mem_range.mpr (h.lt_size_of_mem (h.mem_preorder hl hm))
    simpa using (List.subperm_of_subset (h.nodup_path hl) hsub).length_le
  have hhead : l.path.reverse.head? = some l.node := by
    rw [Lineage.path, List.reverse_append]
    rfl
  rw [path, ← hhead]
  exact pathUpTo_eq (List.isChain_reverse.mpr (h.isChain_parent hl)) htop hlength

end Rooted

/-! ## What encloses a node -/

theorem isRightBelowProbe_iff (h : f.parent n = some p) :
    f.isRightBelowProbe n = true ↔ f.kind p = .probe := by
  rw [isRightBelowProbe, h, Option.any_some, decide_eq_true_iff]

/-- Along a way down, what follows a node is right below no probe just when no node on the way but
the last is a probe. -/
theorem forall_isRightBelowProbe_iff (h : (n :: ns).IsChain fun p c => f.parent c = some p) :
    (∀ m ∈ ns, f.isRightBelowProbe m = false) ↔ ∀ a ∈ (n :: ns).dropLast, f.kind a ≠ .probe := by
  induction ns generalizing n with
  | nil => simp
  | cons m ns ih =>
    obtain ⟨hm, hns⟩ := List.isChain_cons_cons.mp h
    rw [List.forall_mem_cons, List.dropLast_cons_cons, List.forall_mem_cons, ih hns,
      ← Bool.not_eq_true, isRightBelowProbe_iff hm]

namespace Rooted

/-- **The nearest node of a kind is the last one passed on the way down.** -/
theorem nearest?_eq_some_iff (h : f.Rooted root) (hl : l ∈ f.lineages [] root) {kind : Kind} :
    f.nearest? l.node kind = some m ↔
      ∃ before after, l.path = before ++ m :: after ∧ f.kind m = kind ∧
        ∀ a ∈ after, f.kind a ≠ kind := by
  rw [nearest?, h.path_eq hl, find?_reverse_eq_some_iff]
  simp only [decide_eq_true_iff, decide_eq_false_iff_not]

theorem nearest?_eq_none_iff (h : f.Rooted root) (hl : l ∈ f.lineages [] root) {kind : Kind} :
    f.nearest? l.node kind = none ↔ ∀ a ∈ l.path, f.kind a ≠ kind := by
  simp [nearest?, h.path_eq hl]

/-- **The statement around a node is the one passed right after the last probe above the node.** -/
theorem statement_eq_ok_iff (h : f.Rooted root) (hl : l ∈ f.lineages [] root) :
    f.statement l.node = .ok m ↔
      ∃ before p after, l.path = before ++ p :: m :: after ∧ f.kind p = .probe ∧
        ∀ a ∈ (m :: after).dropLast, f.kind a ≠ .probe := by
  have hchain := h.isChain_parent hl
  have hfind : f.statement l.node = .ok m ↔ (f.path l.node).find? f.isRightBelowProbe = some m := by
    rw [statement]
    cases (f.path l.node).find? f.isRightBelowProbe <;> simp
  rw [hfind, h.path_eq hl, find?_reverse_eq_some_iff]
  constructor
  · rintro ⟨before, after, hsplit, hm, hafter⟩
    rw [hsplit] at hchain
    rcases List.eq_nil_or_concat before with rfl | ⟨before, p, rfl⟩
    · -- The root is right below nothing.
      obtain ⟨rest, hpath⟩ := h.exists_path_eq hl
      obtain rfl : root = m := (List.cons.inj (hpath.symm.trans hsplit)).1
      rw [isRightBelowProbe, h.parent_root] at hm
      cases hm
    · rw [List.concat_eq_append, List.append_assoc, List.singleton_append] at hsplit hchain
      obtain ⟨-, hp, hrest⟩ := List.isChain_append_cons_cons.mp hchain
      exact ⟨before, p, after, hsplit, (isRightBelowProbe_iff hp).mp hm,
        (forall_isRightBelowProbe_iff hrest).mp hafter⟩
  · rintro ⟨before, p, after, hsplit, hp, hafter⟩
    rw [hsplit] at hchain
    obtain ⟨-, hparent, hrest⟩ := List.isChain_append_cons_cons.mp hchain
    exact ⟨before ++ [p], after, by rw [hsplit, List.append_assoc, List.singleton_append],
      (isRightBelowProbe_iff hparent).mpr hp, (forall_isRightBelowProbe_iff hrest).mpr hafter⟩

/-- A node without a probe above it is outside any probe, even if it is one itself. -/
theorem statement_eq_error_iff (h : f.Rooted root) (hl : l ∈ f.lineages [] root) :
    f.statement l.node = .error (.outsideProbe (f.kind l.node)) ↔
      ∀ a ∈ l.above, f.kind a ≠ .probe := by
  have hfind : f.statement l.node = .error (.outsideProbe (f.kind l.node)) ↔
      ∀ m ∈ f.path l.node, f.isRightBelowProbe m = false := by
    rw [statement]
    cases hfound : (f.path l.node).find? f.isRightBelowProbe with
    | none => simpa using List.find?_eq_none.mp hfound
    | some m =>
      refine iff_of_false (by simp) fun hnone => ?_
      have hm := List.find?_some hfound
      rw [hnone m (List.mem_of_find?_eq_some hfound)] at hm
      cases hm
  have hroot : f.isRightBelowProbe root = false := by
    rw [isRightBelowProbe, h.parent_root]
    rfl
  have hchain := h.isChain_parent hl
  have habove : l.above = l.path.dropLast := (List.dropLast_concat).symm
  obtain ⟨rest, hpath⟩ := h.exists_path_eq hl
  rw [hpath] at hchain habove
  rw [hfind, h.path_eq hl, hpath, habove, ← forall_isRightBelowProbe_iff hchain]
  simp only [List.mem_reverse]
  exact List.forall_mem_cons.trans (and_iff_right hroot)

/-- The statement around a node is right below a probe, and the node lies below it or is it. -/
theorem exists_of_statement_eq (h : f.Rooted root) (hl : l ∈ f.lineages [] root)
    (hm : f.statement l.node = .ok m) :
    ∃ p, f.kind p = .probe ∧ m ∈ f.children p ∧ l.node ∈ f.preorder m := by
  obtain ⟨before, p, after, hpath, hp, -⟩ := (h.statement_eq_ok_iff hl).mp hm
  have hchain := h.isChain_children hl
  have hpassed : m ∈ l.path :=
    hpath ▸ List.mem_append_right _ (List.mem_cons_of_mem p List.mem_cons_self)
  have hlast : l.path.getLast? = some l.node := List.getLast?_concat
  rw [hpath] at hchain hlast
  obtain ⟨-, hchild, hbelow⟩ := List.isChain_append_cons_cons.mp hchain
  refine ⟨p, hp, hchild, ?_⟩
  refine (h.grounded.of_mem (h.mem_preorder hl hpassed)).mem_of_isChain hbelow ?_
  rw [List.getLast?_append_of_ne_nil _ (List.cons_ne_nil p _), List.getLast?_cons_cons] at hlast
  exact List.mem_of_getLast? hlast

end Rooted

end Forest

namespace Store

/-- **Climbing finds what the descent has passed.**  In a rooted tree every node is at the end of a
way down, which leads from the root over children.  The nearest node of a kind is the last one of
that kind on it, the node itself included, and there is none just when no node on it is of that
kind; the provider around a node is the one found for the nearest probe.  The statement around a
node is the one passed right after the last probe above the node: a child of that probe from which
the node is visited.  It is missing just when no node above is a probe, and that is a fault. -/
theorem climbing_retraces_descent (s : Store) {root : NodeId} (h : s.forest.Rooted root) :
    (∀ n ∈ s.forest.preorder root, ∃ l ∈ s.forest.lineages [] root, l.node = n) ∧
    ∀ l ∈ s.forest.lineages [] root,
      (∃ rest, l.path = root :: rest) ∧ (l.path.IsChain fun p c => c ∈ s.forest.children p) ∧
      (∀ kind m, s.forest.nearest? l.node kind = some m ↔
        ∃ before after, l.path = before ++ m :: after ∧ s.forest.kind m = kind ∧
          ∀ a ∈ after, s.forest.kind a ≠ kind) ∧
      (∀ kind, s.forest.nearest? l.node kind = none ↔ ∀ a ∈ l.path, s.forest.kind a ≠ kind) ∧
      s.forest.probe? l.node = s.forest.nearest? l.node .probe ∧
      s.forest.script? l.node = s.forest.nearest? l.node .script ∧
      (∀ provider, s.ledger.providerAround? (s.forest.probe? l.node) = some provider ↔
        ∃ before p after, l.path = before ++ p :: after ∧ s.forest.kind p = .probe ∧
          (∀ a ∈ after, s.forest.kind a ≠ .probe) ∧ s.ledger.provider? p = some provider) ∧
      (∀ m, s.forest.statement l.node = .ok m ↔
        ∃ before p after, l.path = before ++ p :: m :: after ∧ s.forest.kind p = .probe ∧
          ∀ a ∈ (m :: after).dropLast, s.forest.kind a ≠ .probe) ∧
      (∀ m, s.forest.statement l.node = .ok m →
        ∃ p, s.forest.kind p = .probe ∧ m ∈ s.forest.children p ∧
          l.node ∈ s.forest.preorder m) ∧
      (s.forest.statement l.node = .error (.outsideProbe (s.forest.kind l.node)) ↔
        ∀ a ∈ l.above, s.forest.kind a ≠ .probe) := by
  refine ⟨fun n hn => ?_, fun l hl => ⟨h.exists_path_eq hl, h.isChain_children hl,
    fun kind m => h.nearest?_eq_some_iff hl, fun kind => h.nearest?_eq_none_iff hl, rfl, rfl,
    fun provider => ?_, fun m => h.statement_eq_ok_iff hl, fun m => h.exists_of_statement_eq hl,
    h.statement_eq_error_iff hl⟩⟩
  · rw [← h.grounded.map_node_lineages []] at hn
    exact List.mem_map.mp hn
  · rw [Ledger.providerAround?, Option.bind_eq_some_iff, Forest.probe?]
    simp only [h.nearest?_eq_some_iff hl]
    constructor
    · rintro ⟨p, ⟨before, after, hpath, hp, hafter⟩, hprovider⟩
      exact ⟨before, p, after, hpath, hp, hafter, hprovider⟩
    · rintro ⟨before, p, after, hpath, hp, hafter, hprovider⟩
      exact ⟨p, ⟨before, after, hpath, hp, hafter⟩, hprovider⟩

/-- A probe in a branch of a statement of another probe, under a script. -/
def nested : Workshop :=
  [Step.construct (.var "x"), .construct .returnProbe,
    .construct (.probe "timer:tick" none (some 1)), .construct (.ifElse 0 (some 2) none),
    .construct (.var "on"), .construct (.probe "syscall:open" (some 4) (some 3)),
    .construct (.script (some 5))].foldl
      (fun w step => (w.step step).2) {}

/-- The inner probe encloses itself, but its statement is the one of the outer probe that it is in.
The outer probe is in no statement at all. -/
theorem climbing_retraces_descent_nested :
    nested.forest.Rooted 6 ∧
      (⟨[6, 5, 3], 2⟩ : Lineage) ∈ nested.forest.lineages [] 6 ∧
      (⟨[6], 5⟩ : Lineage) ∈ nested.forest.lineages [] 6 ∧
      nested.forest.probe? 2 = some 2 ∧ nested.forest.statement 2 = .ok 3 ∧
      nested.forest.probe? 5 = some 5 ∧
      nested.forest.statement 5 = .error (.outsideProbe .probe) := by
  have hrooted : nested.forest.Rooted 6 := ⟨by decide, by decide, by decide, by decide⟩
  have hinner : (⟨[6, 5, 3], 2⟩ : Lineage) ∈ nested.forest.lineages [] 6 := by decide
  have houter : (⟨[6], 5⟩ : Lineage) ∈ nested.forest.lineages [] 6 := by decide
  obtain ⟨-, hclimb⟩ := climbing_retraces_descent nested.toStore hrooted
  obtain ⟨-, -, hnearest, -, -, -, -, hstatement, -⟩ := hclimb _ hinner
  obtain ⟨-, -, hnearest', -, -, -, -, -, -, houtside⟩ := hclimb _ houter
  exact ⟨hrooted, hinner, houter,
    (hnearest .probe 2).mpr ⟨[6, 5, 3], [], rfl, by decide, by decide⟩,
    (hstatement 3).mpr ⟨[6], 5, [2], rfl, by decide, by decide⟩,
    (hnearest' .probe 5).mpr ⟨[6], [], rfl, by decide, by decide⟩, houtside.mpr (by decide)⟩

end Store

end ProbeScript
