import ProbeScript.Forest.Basic

/-!
# Forest/Lemmas — what each change does to the nodes

A forest is read through `Forest.node`.  Pushing a node leaves those before it alone, and the
changes of links touch one field of one node.
-/

namespace ProbeScript.Forest

variable (f : Forest)

/-! ## Pushing -/

@[simp] theorem size_push (shape : Shape) : (f.push shape).size = f.size + 1 := by
  simp [push, size]

theorem node_push (shape : Shape) (n : NodeId) :
    (f.push shape).node n = if n = f.size then { shape } else f.node n := by
  simp only [push, node, size, Array.getD_eq_getD_getElem?, Array.getElem?_push]
  split <;> rfl

/-- An identity not in use has no links and nothing below it. -/
theorem node_eq_default {n : NodeId} (h : f.size ≤ n) : f.node n = default := by
  simp only [node, Array.getD_eq_getD_getElem?]
  rw [Array.getElem?_eq_none h, Option.getD_none]

/-! ## Changing links -/

@[simp] theorem size_modify (n : NodeId) (change : Node → Node) :
    (f.modify n change).size = f.size := by
  simp [modify, size]

theorem node_modify (n m : NodeId) (change : Node → Node) :
    (f.modify n change).node m = if n = m ∧ m < f.size then change (f.node m) else f.node m := by
  simp only [modify, node, size, Array.getD_eq_getD_getElem?, Array.getElem?_modify]
  by_cases h : m < f.nodes.size
  · by_cases hn : n = m <;> simp [h, hn]
  · simp [h]

@[simp] theorem size_setParent (p n : NodeId) : (f.setParent p n).size = f.size := f.size_modify ..

@[simp] theorem size_setNext (n m : NodeId) : (f.setNext n m).size = f.size := f.size_modify ..

@[simp] theorem shape_setParent (p n m : NodeId) : (f.setParent p n).shape m = f.shape m := by
  simp only [shape, setParent, node_modify]; split <;> rfl

@[simp] theorem next_setParent (p n m : NodeId) : (f.setParent p n).next m = f.next m := by
  simp only [next, setParent, node_modify]; split <;> rfl

theorem parent_setParent (p n m : NodeId) :
    (f.setParent p n).parent m = if n = m ∧ m < f.size then some p else f.parent m := by
  simp only [parent, setParent, node_modify]; split <;> rfl

@[simp] theorem shape_setNext (n next m : NodeId) : (f.setNext n next).shape m = f.shape m := by
  simp only [shape, setNext, node_modify]; split <;> rfl

@[simp] theorem parent_setNext (n next m : NodeId) : (f.setNext n next).parent m = f.parent m := by
  simp only [parent, setNext, node_modify]; split <;> rfl

theorem next_setNext (n next m : NodeId) :
    (f.setNext n next).next m = if n = m ∧ m < f.size then some next else f.next m := by
  simp only [Forest.next, setNext, node_modify]; split <;> rfl

end ProbeScript.Forest
