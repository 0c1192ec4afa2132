import ProbeScript.Forest.Basic

/-!
# Forest/Descent — the visits made below a node

To descend from a node is to visit it and then to descend from each node right below it.  The visits
form a tree even where the nodes do not: a node that can be reached in two ways is visited twice.  A
node that lies below itself has no such tree.
-/

namespace ProbeScript

/-- A visit to a node with the visits made right below it, in order. -/
inductive Visit where
  | node (id : NodeId) (inner : List Visit)

namespace Visit

/-- The node visited. -/
def id : Visit → NodeId
  | node id _ => id

/-- The visits right below. -/
def inner : Visit → List Visit
  | node _ inner => inner

mutual

/-- The nodes visited, each before those below it. -/
def preorder : Visit → List NodeId
  | node id inner => id :: preorderAll inner

/-- The nodes visited by several visits, one visit after the other. -/
def preorderAll : List Visit → List NodeId
  | [] => []
  | v :: rest => v.preorder ++ preorderAll rest

end

end Visit

namespace Forest

/-- The visits below a node, if no path downwards has more than `depth` nodes. -/
def unfold (f : Forest) : Nat → NodeId → Option Visit
  | 0, _ => none
  | depth + 1, n => ((f.children n).mapM (f.unfold depth)).map (Visit.node n)

/-- The visits below a node.  A path downwards longer than the number of nodes comes back to a node,
so there are none just when the descent does not end. -/
def visit? (f : Forest) (n : NodeId) : Option Visit := f.unfold (f.size + 1) n

end Forest

end ProbeScript
