import ProbeScript.Dump.Line
import ProbeScript.Forest.Walk
import ProbeScript.Workshop.Basic

/-!
# Dump/Diagram — a tree drawn with rails

A diagram has one line for each visit.  A line hangs on the rail of the node above it, and a rail
goes on through the lines in between while another node is to follow on it.
-/

namespace ProbeScript

/-- Whether another node follows a node: in its chain, or in a later place below its parent. -/
def Forest.isFollowed (f : Forest) (n : NodeId) : Bool :=
  (f.next n).isSome ||
    match f.parent n with
    | some p => ((f.children p).idxOf? n).any fun place => place + 1 < (f.children p).length
    | none => false

/-- A diagram being drawn: the lines so far, and for every open node, the outermost first, whether
its rail goes on. -/
structure Drawing where
  lines : List String := []
  rails : List Bool := []

namespace Drawing

/-- The rails that a line begins with. -/
def railText (rails : List Bool) : String :=
  String.join (rails.map fun goesOn => if goesOn then "|   " else "    ")

/-- Draws the line of a node and opens it.  The node at the top hangs on nothing. -/
def enter (f : Forest) (ledger : Ledger) : Visitor Fault Drawing := fun n s =>
  let goesOn := !s.rails.isEmpty && f.isFollowed n
  match ledger.line f n with
  | .error fault => (.error fault, s)
  | .ok line =>
    (.ok 0, {
      lines := s.lines ++ [railText s.rails ++ (if goesOn then "|" else "`") ++ "-> " ++ line]
      rails := s.rails ++ [goesOn] })

/-- Closes a node. -/
def leave : Visitor Fault Drawing := fun _ s => (.ok 0, { s with rails := s.rails.dropLast })

/-- The text of a diagram. -/
def text (s : Drawing) : String := String.join (("ast:" :: s.lines).map fun line => line ++ "\n")

end Drawing

namespace Store

/-- The diagram of the tree below a node. -/
def diagram (s : Store) (root : NodeId) : Except Fault String :=
  let (outcome, drawing) :=
    s.forest.walk root (some (Drawing.enter s.forest s.ledger)) (some Drawing.leave) {}
  outcome.map fun _ => drawing.text

/-- The chunks written to dump the tree below a node: its diagram in one piece, or none at all. -/
def dump (s : Store) (root : NodeId) : Except Fault (List String) :=
  (s.diagram root).map fun text => [text]

end Store

end ProbeScript
