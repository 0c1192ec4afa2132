import ProbeScript.Fault
import ProbeScript.Forest.Basic

/-!
# Forest/Ancestor — climbing from a node

The path of a node leads from the node itself along the parents.  What encloses a node is found on
it.
-/

namespace ProbeScript.Forest

/-- The first nodes of the path that starts at `n`, at most `bound` of them. -/
def pathUpTo (f : Forest) : Nat → Option NodeId → List NodeId
  | 0, _ => []
  | _, none => []
  | bound + 1, some n => n :: f.pathUpTo bound (f.parent n)

/-- The path of a node.  A parent is built after its child, so the number of nodes bounds the
length. -/
def path (f : Forest) (n : NodeId) : List NodeId := f.pathUpTo f.size (some n)

/-- The first node of a kind on the path of a node. -/
def nearest? (f : Forest) (n : NodeId) (kind : Kind) : Option NodeId :=
  (f.path n).find? fun m => f.kind m = kind

/-- The probe around a node, which may be the node itself. -/
def probe? (f : Forest) (n : NodeId) : Option NodeId := f.nearest? n .probe

/-- The script around a node, which may be the node itself. -/
def script? (f : Forest) (n : NodeId) : Option NodeId := f.nearest? n .script

/-- Whether a probe is the parent of a node. -/
def isRightBelowProbe (f : Forest) (n : NodeId) : Bool :=
  (f.parent n).any fun p => f.kind p = .probe

/-- The statement or predicate of a probe that a node belongs to: the first node on its path right
below a probe. -/
def statement (f : Forest) (n : NodeId) : Except Fault NodeId :=
  match (f.path n).find? f.isRightBelowProbe with
  | some m => .ok m
  | none => .error (.outsideProbe (f.kind n))

end ProbeScript.Forest
