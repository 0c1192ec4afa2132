/-!
# Kind — the eighteen kinds of node

A script is a tree of nodes, each of one of eighteen kinds.  Nodes of sixteen kinds have a record of
their own; maps and variables share the one of the symbol they name.
-/

namespace ProbeScript

/-- The kinds of node. -/
inductive Kind where
  | script
  | probe
  | ifElse
  | unroll
  | breakLoop
  | continueLoop
  | returnProbe
  | call
  | method
  | assign
  | binop
  | negation
  | map
  | var
  | record
  | str
  | int
  | stackValue
  deriving DecidableEq

namespace Kind

/-- All kinds, each once. -/
def all : List Kind :=
  [script, probe, ifElse, unroll, breakLoop, continueLoop, returnProbe, call, method, assign, binop,
    negation, map, var, record, str, int, stackValue]

/-- The name a kind goes by in dumps and messages. -/
def name : Kind → String
  | script => "script"
  | probe => "probe"
  | ifElse => "if"
  | unroll => "unroll"
  | breakLoop => "break"
  | continueLoop => "continue"
  | returnProbe => "return"
  | call => "call"
  | method => "method"
  | assign => "assign"
  | binop => "binop"
  | negation => "not"
  | map => "map"
  | var => "var"
  | record => "rec"
  | str => "str"
  | int => "int"
  | stackValue => "stack"

/-- The kind of a name. -/
def ofName? (s : String) : Option Kind := all.find? (·.name == s)

/-- Whether the record attached to a node belongs to the node rather than to the symbol it names. -/
def ownsRecord : Kind → Bool
  | map | var => false
  | _ => true

theorem mem_all (k : Kind) : k ∈ all := by cases k <;> decide

theorem ofName?_name (k : Kind) : ofName? k.name = some k := by cases k <;> decide

theorem name_injective {j k : Kind} (h : j.name = k.name) : j = k := by
  simpa [ofName?_name] using congrArg ofName? h

end Kind

end ProbeScript
