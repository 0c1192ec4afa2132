import ProbeScript.Kind
import ProbeScript.Operator

/-!
# Forest/Basic — nodes and the links between them

A forest holds all nodes built so far, each known by its number.  A node has a shape, which says
what it is and which nodes it was built over, a parent, which is the node built over it last, and a
successor in a chain of siblings.  Nothing keeps a node from being built over twice, so a forest is
a graph; trees are what careful use of it leaves.
-/

namespace ProbeScript

/-- The identity of a node: its number in order of construction. -/
abbrev NodeId := Nat

/-- What a node is.  An optional chain is known by its first node. -/
inductive Shape where
  | script (probes : Option NodeId)
  | probe (spec : String) (predicate statements : Option NodeId)
  /-- The last statement of the first branch is kept as it was at construction. -/
  | ifElse (condition : NodeId) (thenHead thenLast elseHead : Option NodeId)
  | unroll (count : Nat) (statements : Option NodeId)
  | breakLoop
  | continueLoop
  | returnProbe
  /-- A call without a module leaves it to a later stage to find one.  The number of arguments is
  the one at construction. -/
  | call (module : Option String) (function : String) (args : Option NodeId) (argCount : Nat)
  | method (target invocation : NodeId)
  | assign (target : NodeId) (value : Option NodeId)
  | binop (operator : Operator) (left right : NodeId)
  | negation (operand : NodeId)
  | map (name : String) (key : NodeId)
  | var (name : String)
  /-- A record has at least one field. -/
  | record (args : NodeId) (argCount : Nat)
  | str (value : String)
  | int (value : Int)
  | stackValue
  deriving DecidableEq

/-- A place below a node: one node, or a chain given by its first node. -/
inductive Slot where
  | one (child : NodeId)
  | chain (head : NodeId)
  deriving DecidableEq

namespace Shape

/-- The kind of a shape. -/
def kind : Shape → Kind
  | script _ => .script
  | probe _ _ _ => .probe
  | ifElse _ _ _ _ => .ifElse
  | unroll _ _ => .unroll
  | breakLoop => .breakLoop
  | continueLoop => .continueLoop
  | returnProbe => .returnProbe
  | call _ _ _ _ => .call
  | method _ _ => .method
  | assign _ _ => .assign
  | binop _ _ _ => .binop
  | negation _ => .negation
  | map _ _ => .map
  | var _ => .var
  | record _ _ => .record
  | str _ => .str
  | int _ => .int
  | stackValue => .stackValue

/-- The places below a node that are filled, in the order in which they are visited. -/
def slots : Shape → List Slot
  | script probes => (probes.map Slot.chain).toList
  | probe _ predicate statements =>
    (predicate.map Slot.one).toList ++ (statements.map Slot.chain).toList
  | ifElse condition thenHead _ elseHead =>
    .one condition :: ((thenHead.map Slot.chain).toList ++ (elseHead.map Slot.chain).toList)
  | unroll _ statements => (statements.map Slot.chain).toList
  | call _ _ args _ => (args.map Slot.chain).toList
  | method target invocation => [.one target, .one invocation]
  | assign target value => .one target :: (value.map Slot.one).toList
  | binop _ left right => [.one left, .one right]
  | negation operand => [.one operand]
  | map _ key => [.one key]
  | record args _ => [.chain args]
  | breakLoop | continueLoop | returnProbe | var _ | str _ | int _ | stackValue => []

/-- The symbol a shape names, for maps and variables. -/
def symbol? : Shape → Option String
  | map name _ => some name
  | var name => some name
  | _ => none

end Shape

/-- A node: its shape and its links upwards and onwards. -/
structure Node where
  shape : Shape
  parent : Option NodeId := none
  next : Option NodeId := none
  deriving DecidableEq

instance : Inhabited Node := ⟨⟨.breakLoop, none, none⟩⟩

/-- All nodes built so far, in order of construction. -/
structure Forest where
  nodes : Array Node := #[]

namespace Forest

/-- The node of an identity.  One that is not in use reads as a bare statement without links. -/
def node (f : Forest) (n : NodeId) : Node := f.nodes.getD n default

/-- How many nodes there are. -/
def size (f : Forest) : Nat := f.nodes.size

/-- The shape of a node. -/
def shape (f : Forest) (n : NodeId) : Shape := (f.node n).shape

/-- The kind of a node. -/
def kind (f : Forest) (n : NodeId) : Kind := (f.shape n).kind

/-- The node built last over a node. -/
def parent (f : Forest) (n : NodeId) : Option NodeId := (f.node n).parent

/-- The successor of a node in its chain. -/
def next (f : Forest) (n : NodeId) : Option NodeId := (f.node n).next

/-- The forest with one node changed. -/
def modify (f : Forest) (n : NodeId) (change : Node → Node) : Forest :=
  ⟨f.nodes.modify n change⟩

/-- The forest with one node more, which is not linked to any other. -/
def push (f : Forest) (shape : Shape) : Forest := ⟨f.nodes.push { shape }⟩

/-! ## Chains and children -/

/-- The first nodes of the chain that starts at `head`, at most `bound` of them. -/
def chainUpTo (f : Forest) : Nat → Option NodeId → List NodeId
  | 0, _ => []
  | _, none => []
  | bound + 1, some n => n :: f.chainUpTo bound (f.next n)

/-- The chain that starts at `head`.  A chain has no node twice, so the number of nodes bounds its
length. -/
def chain (f : Forest) (head : Option NodeId) : List NodeId := f.chainUpTo f.size head

/-- The nodes in a place. -/
def fill (f : Forest) : Slot → List NodeId
  | .one child => [child]
  | .chain head => f.chain (some head)

/-- The nodes right below a node, in the order in which they are visited. -/
def children (f : Forest) (n : NodeId) : List NodeId := (f.shape n).slots.flatMap f.fill

/-! ## Growing -/

/-- The forest in which a node has the given parent. -/
def setParent (f : Forest) (p n : NodeId) : Forest :=
  f.modify n fun node => { node with parent := some p }

/-- The forest in which a node has the given successor. -/
def setNext (f : Forest) (n m : NodeId) : Forest :=
  f.modify n fun node => { node with next := some m }

/-- Builds a node of a shape and makes it the parent of all nodes right below it. -/
def add (f : Forest) (shape : Shape) : NodeId × Forest :=
  let built := f.push shape
  (f.size, (built.children f.size).foldl (fun g n => g.setParent f.size n) built)

/-- The forest in which a call has the given module. -/
def setModule (f : Forest) (n : NodeId) (module : String) : Forest :=
  f.modify n fun node =>
    match node.shape with
    | .call _ function args argCount =>
      { node with shape := .call (some module) function args argCount }
    | _ => node

end Forest

end ProbeScript
