import Mathlib.Data.List.Basic
import Mathlib.Data.List.Nodup
import ProbeScript.Dump.Diagram
import ProbeScript.Proofs.Forest.Chained
import ProbeScript.Proofs.Forest.Euler

/-!
# Proofs/Forest/Subtree — well-formed subtrees, and which nodes are last below their parents

A subtree is well-formed when the descent ends and meets no node twice, parents lead back up the way
the descent comes down, and a node in a place of its own has no successor.  What the root is linked
to outside does not matter.  In such a subtree a node is followed, in its chain or in a later place
of its parent, just when it is not the last of its parent's children (`isFollowed_iff`).
-/

namespace ProbeScript.Forest

variable {f : Forest} {root n c p : NodeId} {before after : List NodeId}

/-- A well-formed subtree. -/
structure Subtree (f : Forest) (root : NodeId) : Prop where
  grounded : f.Grounded root
  nodup : (f.preorder root).Nodup
  /-- Every node below the root has for its parent the node it is reached from. -/
  parent_eq : ∀ p ∈ f.preorder root, ∀ c ∈ f.children p, f.parent c = some p
  next_eq : ∀ p ∈ f.preorder root, ∀ c, .one c ∈ (f.shape p).slots → f.next c = none

theorem subtree_iff : f.Subtree root ↔ f.Grounded root ∧ (f.preorder root).Nodup ∧
    (∀ p ∈ f.preorder root, ∀ c ∈ f.children p, f.parent c = some p) ∧
    ∀ p ∈ f.preorder root, ∀ s ∈ (f.shape p).slots, ∀ c ∈ f.fill s,
      s = .one c → f.next c = none :=
  ⟨fun h => ⟨h.grounded, h.nodup, h.parent_eq,
      fun p hp _ hs c _ heq => h.next_eq p hp c (heq ▸ hs)⟩,
    fun ⟨hground, hnodup, hparent, hnext⟩ => ⟨hground, hnodup, hparent, fun p hp c hc =>
      hnext p hp _ hc c List.mem_cons_self rfl⟩⟩

instance (f : Forest) (root : NodeId) : Decidable (f.Subtree root) :=
  decidable_of_iff' _ subtree_iff

/-- Whether a node below the root of a subtree is not the last of its parent's children. -/
def hasLater (f : Forest) (root n : NodeId) : Bool :=
  n != root && (f.parent n).any fun p => (f.children p).getLast? != some n

/-! ## What is visited -/

theorem Grounded.mem_preorder (h : f.Grounded n) : n ∈ f.preorder n := by
  rw [h.preorder_eq]
  exact List.mem_cons_self

theorem Grounded.preorder_subset (h : f.Grounded n) (hc : c ∈ f.children n) :
    f.preorder c ⊆ f.preorder n := by
  intro m hm
  rw [h.preorder_eq]
  exact List.mem_cons_of_mem n (List.mem_flatMap.mpr ⟨c, hc, hm⟩)

theorem Grounded.children_subset (h : f.Grounded n) : f.children n ⊆ f.preorder n :=
  fun _ hc => h.preorder_subset hc (h.child hc).mem_preorder

theorem Grounded.of_mem (h : f.Grounded root) (hn : n ∈ f.preorder root) : f.Grounded n :=
  h.forall_preorder h (fun _ hm _ hc => hm.child hc) n hn

/-- **What is visited from a node visited is visited in one go.** -/
theorem Grounded.preorder_infix (h : f.Grounded root) (hn : n ∈ f.preorder root) :
    f.preorder n <:+: f.preorder root := by
  induction h with
  | @intro root children ih =>
    have hroot := Grounded.intro children
    rw [hroot.preorder_eq] at hn
    rcases List.mem_cons.mp hn with rfl | hn
    · exact List.infix_rfl
    · obtain ⟨c, hc, hn⟩ := List.mem_flatMap.mp hn
      obtain ⟨before, after, hsplit⟩ := List.append_of_mem hc
      refine (ih c hc hn).trans ⟨root :: before.flatMap f.preorder, after.flatMap f.preorder, ?_⟩
      rw [hroot.preorder_eq, hsplit, List.flatMap_append, List.flatMap_cons, List.cons_append,
        List.cons_append, List.append_assoc]

theorem Grounded.preorder_subset_of_mem (h : f.Grounded root) (hn : n ∈ f.preorder root) :
    f.preorder n ⊆ f.preorder root := (h.preorder_infix hn).subset

namespace Subtree

/-- A subtree has subtrees right below its root. -/
theorem child (h : f.Subtree n) (hc : c ∈ f.children n) : f.Subtree c where
  grounded := h.grounded.child hc
  nodup := by
    have hnodup := h.nodup
    rw [h.grounded.preorder_eq, List.nodup_cons, List.nodup_flatMap] at hnodup
    exact hnodup.2.1 c hc
  parent_eq p hp := h.parent_eq p (h.grounded.preorder_subset hc hp)
  next_eq p hp := h.next_eq p (h.grounded.preorder_subset hc hp)

theorem of_mem (h : f.Subtree root) (hn : n ∈ f.preorder root) : f.Subtree n :=
  h.grounded.forall_preorder h (fun _ hm _ hc => hm.child hc) n hn

theorem notMem_children (h : f.Subtree n) : n ∉ f.children n := fun hn =>
  h.grounded.not_below_self (Relation.TransGen.single hn)

theorem nodup_children (h : f.Subtree n) : (f.children n).Nodup := by
  have hnodup := h.nodup
  rw [h.grounded.preorder_eq, List.nodup_cons, List.nodup_flatMap] at hnodup
  refine hnodup.2.2.imp_of_mem fun {c d} hc _ hdisjoint heq => ?_
  -- Two children that are the same node would have all they visit in common.
  have hmem := (h.grounded.child hc).mem_preorder
  exact hdisjoint hmem (heq ▸ hmem)

/-- The root is right below none of the nodes visited. -/
theorem ne_root (h : f.Subtree root) (hp : p ∈ f.preorder root) (hc : c ∈ f.children p) :
    c ≠ root := by
  rintro rfl
  have hbelow : ∀ m ∈ f.preorder c, m = c ∨ f.Below m c :=
    h.grounded.forall_preorder (.inl rfl) fun m hm d hd => .inr <| by
      rcases hm with rfl | hm
      · exact .single hd
      · exact .head hd hm
  refine h.grounded.not_below_self ?_
  rcases hbelow p hp with rfl | hp
  · exact .single hc
  · exact .head hc hp

/-! ## Last children -/

/-- A node with a successor is not the last child of its parent. -/
theorem ne_nil_of_next (h : f.Subtree p) (hsplit : f.children p = before ++ c :: after) {m : NodeId}
    (hm : f.next c = some m) : after ≠ [] := by
  have hc : c ∈ f.children p := hsplit ▸ List.mem_append_right _ List.mem_cons_self
  have hnodup := h.nodup_children
  obtain ⟨s, hs, hcs⟩ := List.mem_flatMap.mp hc
  cases s with
  | one child =>
    obtain rfl := List.mem_singleton.mp hcs
    rw [h.next_eq p h.grounded.mem_preorder c hs] at hm
    cases hm
  | chain head =>
    obtain ⟨first, last, hslots⟩ := List.append_of_mem hs
    have hchildren : f.children p
        = first.flatMap f.fill ++ (f.chain (some head) ++ last.flatMap f.fill) := by
      rw [children, hslots, List.flatMap_append, List.flatMap_cons, fill]
    have hsublist : (f.chain (some head)).Sublist (f.children p) := by
      rw [hchildren]
      exact (List.sublist_append_left ..).trans (List.sublist_append_right ..)
    have hchained := chained_of_nodup (hnodup.sublist hsublist) (lt_size_of_mem_children hc)
      fun hp => h.notMem_children (hsublist.subset hp)
    obtain ⟨ns, ms, hns, hfrom⟩ := hchained.from_mem hcs
    cases hfrom with
    | cons rest =>
      rw [hm] at rest
      cases rest with
      | cons rest =>
        -- The successor stands right behind the node among the children, which are distinct.
        rw [hns, List.append_assoc, List.cons_append, List.cons_append, ← List.append_assoc]
          at hchildren
        rw [hsplit] at hchildren hnodup
        have hnotMem := (List.nodup_cons.mp (List.nodup_middle.mp hnodup)).1
        rw [List.mem_append, not_or] at hnotMem
        obtain ⟨-, -, rfl⟩ := (List.append_cons_inj_of_notMem hnotMem.1 hnotMem.2).mp hchildren
        exact List.cons_ne_nil _ _

theorem idxOf?_eq {l : List NodeId} (hnodup : l.Nodup) (hsplit : l = before ++ c :: after) :
    l.idxOf? c = some before.length := by
  subst hsplit
  have hc : c ∉ before := fun hc =>
    (List.nodup_cons.mp (List.nodup_middle.mp hnodup)).1 (List.mem_append_left _ hc)
  rw [List.idxOf?_eq_some_iff]
  refine ⟨by simp, by simp, fun j hj => ?_⟩
  rw [List.getElem_append_left hj]
  exact fun heq => hc (heq ▸ List.getElem_mem hj)

/-- **A node is followed just when its parent has a child behind it.** -/
theorem isFollowed_iff (h : f.Subtree p) (hsplit : f.children p = before ++ c :: after) :
    f.isFollowed c = true ↔ after ≠ [] := by
  have hc : c ∈ f.children p := hsplit ▸ List.mem_append_right _ List.mem_cons_self
  have hplace : ((f.children p).idxOf? c).any
      (fun place => place + 1 < (f.children p).length) = true ↔ after ≠ [] := by
    rw [idxOf?_eq h.nodup_children hsplit, Option.any_some, decide_eq_true_iff, hsplit,
      List.length_append, List.length_cons, ← List.length_pos_iff]
    omega
  rw [isFollowed, h.parent_eq p h.grounded.mem_preorder c hc, Bool.or_eq_true, hplace]
  refine or_iff_right_of_imp fun hnext => ?_
  obtain ⟨m, hm⟩ := Option.isSome_iff_exists.mp hnext
  exact h.ne_nil_of_next hsplit hm

/-- The last of a node's children is the one with none behind it. -/
theorem hasLater_iff (h : f.Subtree root) (hp : p ∈ f.preorder root)
    (hsplit : f.children p = before ++ c :: after) : f.hasLater root c = true ↔ after ≠ [] := by
  have hc : c ∈ f.children p := hsplit ▸ List.mem_append_right _ List.mem_cons_self
  have hnodup := (h.of_mem hp).nodup_children
  rw [hasLater, bne_iff_ne.mpr (h.ne_root hp hc), Bool.true_and, h.parent_eq p hp c hc,
    Option.any_some, bne_iff_ne, hsplit]
  rw [hsplit] at hnodup
  cases hafter : after.getLast? with
  | none =>
    obtain rfl := List.getLast?_eq_none_iff.mp hafter
    simp
  | some last =>
    have hlast := List.mem_of_getLast? hafter
    have hne : last ≠ c := fun heq =>
      (List.nodup_cons.mp (List.nodup_middle.mp hnodup)).1 (List.mem_append_right _ (heq ▸ hlast))
    rw [List.getLast?_append, List.getLast?_cons, hafter]
    simpa [hne] using List.ne_nil_of_mem hlast

end Subtree

end ProbeScript.Forest
