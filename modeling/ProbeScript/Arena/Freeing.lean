import ProbeScript.Arena.Basic
import ProbeScript.Forest.Walk

/-!
# Arena/Freeing — giving up a whole tree

A tree is given up in one walk, each node after those below it.  The walk stops at the first node
that the arena does not own; those before it stay released.
-/

namespace ProbeScript

/-- An arena while a tree is freed, with the number of nodes released. -/
structure Freeing where
  arena : Arena
  released : Nat := 0

/-- Releases one node. -/
def Freeing.visit (f : Forest) : Visitor Fault Freeing := fun n s =>
  match s.arena.release f n with
  | .ok arena => (.ok 0, ⟨arena, s.released + 1⟩)
  | .error fault => (.error fault, s)

/-- Releases all nodes below a node and the node itself; the answer is their number. -/
def Arena.free (a : Arena) (f : Forest) (root : NodeId) : Except Fault Nat × Arena :=
  let (outcome, s) := f.walk root none (some (Freeing.visit f)) { arena := a }
  (outcome.map fun _ => s.released, s.arena)

end ProbeScript
