import ProbeScript.Fault
import ProbeScript.Forest.Basic

/-!
# Forest/Chain — joining nodes into chains

A node is appended to a chain by making it the successor of the chain's last node.  Only a node
without parent and successor can be appended, and none to the chain that ends in it.
-/

namespace ProbeScript.Forest

/-- Appends a node to the chain that starts at `head`, or starts a chain with it; the answer is the
first node of the chain. -/
def append (f : Forest) (head : Option NodeId) (n : NodeId) : Except Fault (NodeId × Forest) :=
  if (f.next n).isSome || (f.parent n).isSome then .error (.alreadyLinked (f.kind n))
  else
    match head with
    | none => .ok (n, f)
    | some first =>
      match (f.chain head).getLast? with
      | none => .ok (first, f)
      | some last =>
        if last = n then .error (.ownChain (f.kind n)) else .ok (first, f.setNext last n)

/-- Appends nodes in order to the chain that starts at `head`.  A fault stops it; the nodes appended
before stay linked. -/
def linkFrom (f : Forest) (head : Option NodeId) :
    List NodeId → Except Fault (Option NodeId) × Forest
  | [] => (.ok head, f)
  | n :: rest =>
    match f.append head n with
    | .ok (first, g) => g.linkFrom (some first) rest
    | .error fault => (.error fault, f)

/-- Joins nodes in order into one chain and answers with its first node, if there is one. -/
def link (f : Forest) (ns : List NodeId) : Except Fault (Option NodeId) × Forest :=
  f.linkFrom none ns

end ProbeScript.Forest
