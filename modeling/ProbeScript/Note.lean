import ProbeScript.Kind
import ProbeScript.Number.Text

/-!
# Note — what the stages after parsing decide about a value

A note says which kind of value a node holds, how many bytes it takes and where it lives.  It
starts out undecided in all three.
-/

namespace ProbeScript

/-- Where a value lives: nowhere yet, in no storage of its own, in a register, or on the stack. -/
inductive Location where
  | nowhere
  | virtual
  | reg (register : Number)
  | stack (address : Number)
  deriving DecidableEq

namespace Location

/-- The name of a sort of location. -/
def name : Location → String
  | nowhere => "nowhere"
  | virtual => "virtual"
  | reg _ => "reg"
  | stack _ => "stack"

/-- What follows the name: the register, or the distance of the address below the frame's top. -/
def suffix : Location → String
  | nowhere | virtual => ""
  | reg register => "/" ++ register.text
  | stack address => "/-0x" ++ (-address).hex

end Location

/-- The decisions about one value.  A missing type is one not decided yet. -/
structure Note where
  type : Option Kind := none
  size : Number := .ofInt 0
  location : Location := .nowhere
  deriving DecidableEq

namespace Note

/-- The note in which nothing is decided. -/
def unresolved : Note := {}

/-- The name of the type, `none` until it is decided. -/
def typeName (a : Note) : String := (a.type.map Kind.name).getD "none"

end Note

end ProbeScript
