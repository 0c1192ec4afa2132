import ProbeScript.Proofs.Forest.Chained

/-!
# Proofs/Forest/Adding — what building a node does to the others

Building a node over others pushes one node and makes it the parent of those right below it.  No
successor changes and no shape of another node, so chains stay as they are (`chain_congr`).  Giving
a call its module changes no place below any node.
-/

namespace ProbeScript.Forest

variable {f g : Forest} {n m p : NodeId} {head : Option NodeId} {ns : List NodeId}

/-! ## Parents -/

/-- Makes a node the parent of several others. -/
def setParents (f : Forest) (p : NodeId) (ns : List NodeId) : Forest :=
  ns.foldl (fun g n => g.setParent p n) f

@[simp] theorem size_setParents (f : Forest) (p : NodeId) (ns : List NodeId) :
    (f.setParents p ns).size = f.size := by
  induction ns generalizing f with
  | nil => rfl
  | cons n ns ih => exact (ih _).trans (f.size_setParent p n)

@[simp] theorem shape_setParents (f : Forest) (p : NodeId) (ns : List NodeId) (m : NodeId) :
    (f.setParents p ns).shape m = f.shape m := by
  induction ns generalizing f with
  | nil => rfl
  | cons n ns ih => exact (ih _).trans (f.shape_setParent p n m)

@[simp] theorem next_setParents (f : Forest) (p : NodeId) (ns : List NodeId) (m : NodeId) :
    (f.setParents p ns).next m = f.next m := by
  induction ns generalizing f with
  | nil => rfl
  | cons n ns ih => exact (ih _).trans (f.next_setParent p n m)

theorem parent_setParents (f : Forest) (p : NodeId) (ns : List NodeId) (m : NodeId) :
    (f.setParents p ns).parent m = if m ∈ ns ∧ m < f.size then some p else f.parent m := by
  induction ns generalizing f with
  | nil => simp [setParents]
  | cons n ns ih =>
    refine (ih _).trans ?_
    rw [size_setParent, parent_setParent]
    by_cases hm : m ∈ ns ∧ m < f.size
    · rw [if_pos hm, if_pos ⟨List.mem_cons_of_mem n hm.1, hm.2⟩]
    · rw [if_neg hm]
      by_cases hn : n = m ∧ m < f.size
      · rw [if_pos hn, if_pos ⟨hn.1 ▸ List.mem_cons_self, hn.2⟩]
      · rw [if_neg hn, if_neg]
        rintro ⟨hmem, hlt⟩
        rcases List.mem_cons.mp hmem with rfl | hmem
        · exact hn ⟨rfl, hlt⟩
        · exact hm ⟨hmem, hlt⟩

/-! ## Adding -/

theorem add_eq (f : Forest) (shape : Shape) :
    f.add shape
      = (f.size, (f.push shape).setParents f.size ((f.push shape).children f.size)) := rfl

@[simp] theorem size_add (f : Forest) (shape : Shape) : (f.add shape).2.size = f.size + 1 := by
  rw [add_eq, size_setParents, size_push]

theorem shape_push (f : Forest) (shape : Shape) (m : NodeId) :
    (f.push shape).shape m = if m = f.size then shape else f.shape m := by
  simp only [Forest.shape, node_push]; split <;> rfl

/-- A node just pushed has no links, and neither had its identity before. -/
@[simp] theorem next_push (f : Forest) (shape : Shape) (m : NodeId) :
    (f.push shape).next m = f.next m := by
  simp only [Forest.next, node_push]
  split
  · rename_i hm
    rw [hm, f.node_eq_default (Nat.le_refl _)]
    rfl
  · rfl

@[simp] theorem parent_push (f : Forest) (shape : Shape) (m : NodeId) :
    (f.push shape).parent m = f.parent m := by
  simp only [Forest.parent, node_push]
  split
  · rename_i hm
    rw [hm, f.node_eq_default (Nat.le_refl _)]
    rfl
  · rfl

theorem shape_add (f : Forest) (shape : Shape) (m : NodeId) :
    (f.add shape).2.shape m = if m = f.size then shape else f.shape m := by
  rw [add_eq, shape_setParents, shape_push]

theorem kind_add (f : Forest) (shape : Shape) (m : NodeId) :
    (f.add shape).2.kind m = if m = f.size then shape.kind else f.kind m := by
  rw [kind, shape_add, apply_ite Shape.kind]
  rfl

@[simp] theorem next_add (f : Forest) (shape : Shape) (m : NodeId) :
    (f.add shape).2.next m = f.next m := by
  rw [add_eq, next_setParents, next_push]

theorem parent_add (f : Forest) (shape : Shape) (m : NodeId) :
    (f.add shape).2.parent m
      = if m ∈ (f.push shape).children f.size ∧ m < f.size + 1 then some f.size
        else f.parent m := by
  rw [add_eq, parent_setParents, size_push, parent_push]

/-! ## Giving a call its module -/

@[simp] theorem size_setModule (f : Forest) (n : NodeId) (module : String) :
    (f.setModule n module).size = f.size := f.size_modify ..

@[simp] theorem next_setModule (f : Forest) (n : NodeId) (module : String) (m : NodeId) :
    (f.setModule n module).next m = f.next m := by
  simp only [Forest.next, setModule, node_modify]
  split
  · split <;> rfl
  · rfl

@[simp] theorem parent_setModule (f : Forest) (n : NodeId) (module : String) (m : NodeId) :
    (f.setModule n module).parent m = f.parent m := by
  simp only [Forest.parent, setModule, node_modify]
  split
  · split <;> rfl
  · rfl

/-- Whatever is read off a shape without its module stays. -/
theorem read_setModule {α : Type} {read : Shape → α}
    (hread : ∀ module module' function args argCount,
      read (.call module function args argCount) = read (.call module' function args argCount))
    (f : Forest) (n : NodeId) (module : String) (m : NodeId) :
    read ((f.setModule n module).shape m) = read (f.shape m) := by
  simp only [Forest.shape, setModule, node_modify]
  split
  · split
    · rename_i hshape
      rw [hshape]
      exact hread ..
    · rfl
  · rfl

@[simp] theorem slots_setModule (f : Forest) (n : NodeId) (module : String) (m : NodeId) :
    ((f.setModule n module).shape m).slots = (f.shape m).slots :=
  read_setModule (fun _ _ _ _ _ => rfl) f n module m

@[simp] theorem kind_setModule (f : Forest) (n : NodeId) (module : String) (m : NodeId) :
    (f.setModule n module).kind m = f.kind m :=
  read_setModule (fun _ _ _ _ _ => rfl) f n module m

theorem shape_setModule_of_ne (module : String) (h : m ≠ n) :
    (f.setModule n module).shape m = f.shape m := by
  simp only [Forest.shape, setModule, node_modify, if_neg fun hc : n = m ∧ _ => h hc.1.symm]

/-- Only a call takes a module. -/
theorem shape_setModule_self (module : String) (h : n < f.size) :
    (f.setModule n module).shape n
      = match f.shape n with
        | .call _ function args argCount => .call (some module) function args argCount
        | shape => shape := by
  cases hshape : (f.node n).shape <;> simp [Forest.shape, setModule, node_modify, h, hshape]

/-! ## Chains stay as they are -/

/-- A chain is the same in a forest with the same successors, however many nodes that has more. -/
theorem Chained.chain_congr (h : f.Chained head ns) (hlt : ∀ n ∈ ns, n < f.size)
    (hnext : ∀ n ∈ ns, g.next n = f.next n) (hsize : f.size ≤ g.size) :
    g.chain head = f.chain head := by
  rw [h.chain_eq hlt, (h.congr hnext).chain_eq fun n hn => Nat.lt_of_lt_of_le (hlt n hn) hsize]

end ProbeScript.Forest
