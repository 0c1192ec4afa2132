import ProbeScript.Workshop.Basic

/-!
# Workshop/Construct — the constructions a grammar can ask for

A construction builds one node over nodes built before, and what it needs that was left out: a
record without fields gets the empty string for a field, a map without key such a record for a key.
-/

namespace ProbeScript

/-- An integer literal as a grammar hands it over. -/
inductive Literal where
  | number (value : Number)
  | big (value : Int)
  deriving DecidableEq

namespace Literal

/-- The integer a literal stands for; a number must be a safe integer. -/
def value? : Literal → Except Fault Int
  | number x =>
    match x.safeInt? with
    | some n => .ok n
    | none => .error (.notWhole x)
  | big n => .ok n

end Literal

/-- An integer reduced to a signed word of 64 bits. -/
def toWord (n : Int) : Int := n.bmod 18446744073709551616

/-- A construction with the nodes it is built over; chains are given by their first node. -/
inductive Construct where
  | str (value : String)
  | int (literal : Literal)
  | record (args : Option NodeId)
  | map (name : String) (key : Option NodeId)
  | var (name : String)
  | negation (operand : NodeId)
  | binop (left : NodeId) (operator : Operator) (right : NodeId)
  | assign (target : NodeId) (value : Option NodeId)
  | method (target invocation : NodeId)
  | call (module : Option String) (function : String) (args : Option NodeId)
  | ifElse (condition : NodeId) (thenHead elseHead : Option NodeId)
  | unroll (count : Number) (statements : Option NodeId)
  | breakLoop
  | continueLoop
  | returnProbe
  | probe (spec : String) (predicate statements : Option NodeId)
  | script (probes : Option NodeId)
  | stackValue
  deriving DecidableEq

namespace Workshop

/-- Builds a record over a chain of fields. -/
def buildRecord (w : Workshop) (args : Option NodeId) : NodeId × Workshop :=
  match args with
  | some head => w.mint (.record head (w.forest.chain args).length)
  | none =>
    let (field, w) := w.mint (.str "")
    w.mint (.record field 1)

/-- Builds a map over a key. -/
def buildMap (w : Workshop) (name : String) (key : Option NodeId) : NodeId × Workshop :=
  match key with
  | some key => w.mint (.map name key)
  | none =>
    let (key, w) := w.buildRecord none
    w.mint (.map name key)

/-- Builds a method call; the call below it is marked as one. -/
def buildMethod (w : Workshop) (target invocation : NodeId) : NodeId × Workshop :=
  { w with forest := w.forest.setModule invocation "method" }.mint (.method target invocation)

/-- An unroll count as a natural number. -/
def unrollCount? (count : Number) : Except Fault Nat :=
  match count.safeInt? with
  | some (.ofNat n) => .ok n
  | _ => .error (.badUnrollCount count)

/-- Carries out a construction; the answer is the node asked for.  After a fault the workshop is as
it was. -/
def construct (w : Workshop) : Construct → Except Fault (NodeId × Workshop)
  | .str value => .ok (w.mint (.str value))
  | .int literal => literal.value?.map fun n => w.mint (.int (toWord n))
  | .record args => .ok (w.buildRecord args)
  | .map name key => .ok (w.buildMap name key)
  | .var name => .ok (w.mint (.var name))
  | .negation operand => .ok (w.mint (.negation operand))
  | .binop left operator right => .ok (w.mint (.binop operator left right))
  | .assign target value => .ok (w.mint (.assign target value))
  | .method target invocation => .ok (w.buildMethod target invocation)
  | .call module function args =>
    .ok (w.mint (.call module function args (w.forest.chain args).length))
  | .ifElse condition thenHead elseHead =>
    .ok (w.mint (.ifElse condition thenHead (w.forest.chain thenHead).getLast? elseHead))
  | .unroll count statements => (unrollCount? count).map fun n => w.mint (.unroll n statements)
  | .breakLoop => .ok (w.mint .breakLoop)
  | .continueLoop => .ok (w.mint .continueLoop)
  | .returnProbe => .ok (w.mint .returnProbe)
  | .probe spec predicate statements => .ok (w.mint (.probe spec predicate statements))
  | .script probes => .ok (w.mint (.script probes))
  | .stackValue => .ok (w.mint .stackValue)

end Workshop

end ProbeScript
