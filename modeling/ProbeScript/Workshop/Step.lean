import ProbeScript.Forest.Chain
import ProbeScript.Workshop.Construct

/-!
# Workshop/Step — everything a grammar can do to a workshop

The steps are the constructions, the joining of chains, and the giving and taking of nodes by hand.
-/

namespace ProbeScript

/-- One thing to do in a workshop. -/
inductive Step where
  | construct (c : Construct)
  | append (head : Option NodeId) (n : NodeId)
  | link (ns : List NodeId)
  | adopt (n : NodeId)
  | release (n : NodeId)
  deriving DecidableEq

namespace Workshop

/-- The workshop with another forest. -/
def withForest (w : Workshop) (forest : Forest) : Workshop := { w with forest }

/-- The workshop with another arena. -/
def withArena (w : Workshop) (arena : Arena) : Workshop := { w with arena }

/-- Keeps the workshop as it is where a step meets a fault. -/
def settle {α : Type} (w : Workshop) (outcome : Except Fault (α × Workshop)) :
    Except Fault α × Workshop :=
  match outcome with
  | .ok (answer, w) => (.ok answer, w)
  | .error fault => (.error fault, w)

/-- Takes a step.  The answer is the node built or the first node of the chain joined, if there is
one. -/
def step (w : Workshop) : Step → Except Fault (Option NodeId) × Workshop
  | .construct c => w.settle ((w.construct c).map fun (n, w) => (some n, w))
  | .append head n =>
    w.settle <| (w.forest.append head n).map fun (first, forest) =>
      (some first, w.withForest forest)
  | .link ns =>
    let (outcome, forest) := w.forest.link ns
    (outcome, w.withForest forest)
  | .adopt n =>
    w.settle <| (w.arena.adopt w.forest w.ledger n).map fun arena => (none, w.withArena arena)
  | .release n =>
    w.settle <| (w.arena.release w.forest n).map fun arena => (none, w.withArena arena)

end Workshop

end ProbeScript
