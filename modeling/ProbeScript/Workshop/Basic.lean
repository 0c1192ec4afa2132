import ProbeScript.Arena.Basic

/-!
# Workshop/Basic — where nodes are built

A workshop is the forest with its ledger and one arena, which owns what is built.  `Workshop.mint`
is the one step all construction is made of.
-/

namespace ProbeScript

/-- All nodes with all records. -/
structure Store where
  forest : Forest := {}
  ledger : Ledger := {}

/-- A store with the arena that owns the nodes built next. -/
structure Workshop extends Store where
  arena : Arena := {}

namespace Workshop

/-- The record that a new node of a shape gets; maps and variables wait for that of their symbol. -/
def firstRecord? (shape : Shape) : Option Record :=
  if shape.kind.ownsRecord then
    some { frame := if shape.kind = .probe then some {} else none }
  else none

/-- Builds a node of a shape. -/
def mint (w : Workshop) (shape : Shape) : NodeId × Workshop :=
  let (n, forest) := w.forest.add shape
  match firstRecord? shape with
  | some record =>
    let (r, ledger) := w.ledger.create record
    (n, { forest, ledger := ledger.attach n r, arena := w.arena.insert n (some r) })
  | none => (n, { w with forest, arena := w.arena.insert n none })

end Workshop

end ProbeScript
