import ProbeScript.Workshop.Step

/-!
# Proofs/Expression/Basic — trees of constructions

An expression says which node to build over which others, with nothing shared.  `Expression.build`
builds it from the bottom up, lists in order and then joined; `Forest.readBack` reads a node and
what lies below it back, place by place.  What comes back is the expression's normal form: nothing left
out, integers as words, method calls marked.
-/

namespace ProbeScript

/-- A tree of constructions. -/
inductive Expression where
  | str (value : String)
  | int (literal : Literal)
  | record (args : List Expression)
  | map (name : String) (key : Option Expression)
  | var (name : String)
  | negation (operand : Expression)
  | binop (left : Expression) (operator : Operator) (right : Expression)
  | assign (target : Expression) (value : Option Expression)
  | method (target invocation : Expression)
  | call (module : Option String) (function : String) (args : List Expression)
  | ifElse (condition : Expression) (thens elses : List Expression)
  | unroll (count : Number) (statements : List Expression)
  | breakLoop
  | continueLoop
  | returnProbe
  | probe (spec : String) (predicate : Option Expression) (statements : List Expression)
  | script (probes : List Expression)
  | stackValue

/-- The integer of a literal. -/
def Literal.integer : Literal → Int
  | number x => x.toInt?.getD 0
  | big n => n

namespace Expression

/-- The expressions right below, in the order in which they are written. -/
def parts : Expression → List Expression
  | record args => args
  | map _ key => key.toList
  | negation operand => [operand]
  | binop left _ right => [left, right]
  | assign target value => target :: value.toList
  | method target invocation => [target, invocation]
  | call _ _ args => args
  | ifElse condition thens elses => condition :: (thens ++ elses)
  | unroll _ statements => statements
  | probe _ predicate statements => predicate.toList ++ statements
  | script probes => probes
  | str _ | int _ | var _ | breakLoop | continueLoop | returnProbe | stackValue => []

mutual

/-- Whether all integers given as numbers are safe, and all counts of unrolled loops are safe
natural numbers. -/
def isSound : Expression → Bool
  | int literal => literal.value?.isOk
  | unroll count statements => (Workshop.unrollCount? count).isOk && areSound statements
  | record args => areSound args
  | map _ none => true
  | map _ (some key) => key.isSound
  | negation operand => operand.isSound
  | binop left _ right => left.isSound && right.isSound
  | assign target none => target.isSound
  | assign target (some value) => target.isSound && value.isSound
  | method target invocation => target.isSound && invocation.isSound
  | call _ _ args => areSound args
  | ifElse condition thens elses => condition.isSound && areSound thens && areSound elses
  | probe _ none statements => areSound statements
  | probe _ (some predicate) statements => predicate.isSound && areSound statements
  | script probes => areSound probes
  | str _ | var _ | breakLoop | continueLoop | returnProbe | stackValue => true

/-- Whether several expressions are sound. -/
def areSound : List Expression → Bool
  | [] => true
  | e :: es => e.isSound && areSound es

end

/-! ## Normal form -/

/-- The expression with its module marked as that of a method, if it is a call. -/
def asMethod : Expression → Expression
  | call _ function args => call (some "method") function args
  | e => e

mutual

/-- The expression with what was left out filled in, integers reduced to words, and the calls of
methods marked. -/
def normal : Expression → Expression
  | int literal => int (.big (toWord literal.integer))
  | record [] => record [str ""]
  | record (arg :: args) => record (arg.normal :: normalAll args)
  | map name none => map name (some (record [str ""]))
  | map name (some key) => map name (some key.normal)
  | negation operand => negation operand.normal
  | binop left operator right => binop left.normal operator right.normal
  | assign target none => assign target.normal none
  | assign target (some value) => assign target.normal (some value.normal)
  | method target invocation => method target.normal invocation.normal.asMethod
  | call module function args => call module function (normalAll args)
  | ifElse condition thens elses => ifElse condition.normal (normalAll thens) (normalAll elses)
  | unroll count statements => unroll (.ofInt (count.toInt?.getD 0)) (normalAll statements)
  | probe spec none statements => probe spec none (normalAll statements)
  | probe spec (some predicate) statements =>
    probe spec (some predicate.normal) (normalAll statements)
  | script probes => script (normalAll probes)
  | str value => str value
  | var name => var name
  | breakLoop => breakLoop
  | continueLoop => continueLoop
  | returnProbe => returnProbe
  | stackValue => stackValue

/-- The normal forms of several expressions. -/
def normalAll : List Expression → List Expression
  | [] => []
  | e :: es => e.normal :: normalAll es

end

end Expression

/-! ## Building -/

/-- Joins what was built in order into one chain. -/
def Workshop.join (built : Except Fault (List NodeId × Workshop)) :
    Except Fault (Option NodeId × Workshop) := do
  let (ns, w) ← built
  match w.step (.link ns) with
  | (.ok head, w) => .ok (head, w)
  | (.error fault, _) => .error fault

namespace Expression

mutual

/-- Builds an expression from the bottom up, what lies below it in the order in which it is
written. -/
def build : Expression → Workshop → Except Fault (NodeId × Workshop)
  | str value, w => w.construct (.str value)
  | int literal, w => w.construct (.int literal)
  | record args, w => do
    let (head, w) ← Workshop.join (buildAll args w)
    w.construct (.record head)
  | map name none, w => w.construct (.map name none)
  | map name (some key), w => do
    let (key, w) ← key.build w
    w.construct (.map name (some key))
  | var name, w => w.construct (.var name)
  | negation operand, w => do
    let (operand, w) ← operand.build w
    w.construct (.negation operand)
  | binop left operator right, w => do
    let (left, w) ← left.build w
    let (right, w) ← right.build w
    w.construct (.binop left operator right)
  | assign target none, w => do
    let (target, w) ← target.build w
    w.construct (.assign target none)
  | assign target (some value), w => do
    let (target, w) ← target.build w
    let (value, w) ← value.build w
    w.construct (.assign target (some value))
  | method target invocation, w => do
    let (target, w) ← target.build w
    let (invocation, w) ← invocation.build w
    w.construct (.method target invocation)
  | call module function args, w => do
    let (head, w) ← Workshop.join (buildAll args w)
    w.construct (.call module function head)
  | ifElse condition thens elses, w => do
    let (condition, w) ← condition.build w
    let (thenHead, w) ← Workshop.join (buildAll thens w)
    let (elseHead, w) ← Workshop.join (buildAll elses w)
    w.construct (.ifElse condition thenHead elseHead)
  | unroll count statements, w => do
    let (head, w) ← Workshop.join (buildAll statements w)
    w.construct (.unroll count head)
  | breakLoop, w => w.construct .breakLoop
  | continueLoop, w => w.construct .continueLoop
  | returnProbe, w => w.construct .returnProbe
  | probe spec none statements, w => do
    let (head, w) ← Workshop.join (buildAll statements w)
    w.construct (.probe spec none head)
  | probe spec (some predicate) statements, w => do
    let (predicate, w) ← predicate.build w
    let (head, w) ← Workshop.join (buildAll statements w)
    w.construct (.probe spec (some predicate) head)
  | script probes, w => do
    let (head, w) ← Workshop.join (buildAll probes w)
    w.construct (.script head)
  | stackValue, w => w.construct .stackValue

/-- Builds expressions in order. -/
def buildAll : List Expression → Workshop → Except Fault (List NodeId × Workshop)
  | [], w => .ok ([], w)
  | e :: es, w => do
    let (n, w) ← e.build w
    let (ns, w) ← buildAll es w
    .ok (n :: ns, w)

end

end Expression

/-! ## Reading back -/

namespace Forest

/-- Reads a shape, the nodes in its places with the given reader. -/
def readShape (f : Forest) (read : NodeId → Option Expression) : Shape → Option Expression
  | .str value => some (.str value)
  | .int value => some (.int (.big value))
  | .record args _ => ((f.chain (some args)).mapM read).map .record
  | .map name key => (read key).map fun key => .map name (some key)
  | .var name => some (.var name)
  | .negation operand => (read operand).map .negation
  | .binop operator left right => do some (.binop (← read left) operator (← read right))
  | .assign target none => (read target).map fun target => .assign target none
  | .assign target (some value) => do some (.assign (← read target) (some (← read value)))
  | .method target invocation => do some (.method (← read target) (← read invocation))
  | .call module function args _ => ((f.chain args).mapM read).map (.call module function)
  | .ifElse condition thenHead _ elseHead => do
    some (.ifElse (← read condition) (← (f.chain thenHead).mapM read)
      (← (f.chain elseHead).mapM read))
  | .unroll count statements => ((f.chain statements).mapM read).map (.unroll (.ofInt count))
  | .breakLoop => some .breakLoop
  | .continueLoop => some .continueLoop
  | .returnProbe => some .returnProbe
  | .probe spec none statements => ((f.chain statements).mapM read).map (.probe spec none)
  | .probe spec (some predicate) statements => do
    some (.probe spec (some (← read predicate)) (← (f.chain statements).mapM read))
  | .script probes => ((f.chain probes).mapM read).map .script
  | .stackValue => some .stackValue

/-- Reads a node and what lies below it, if no path downwards has more than `depth` nodes. -/
def readUpTo (f : Forest) : Nat → NodeId → Option Expression
  | 0, _ => none
  | depth + 1, n => f.readShape (f.readUpTo depth) (f.shape n)

/-- Reads a node and what lies below it. -/
def readBack (f : Forest) (n : NodeId) : Option Expression := f.readUpTo (f.size + 1) n

end Forest

end ProbeScript
