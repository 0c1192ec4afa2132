import ProbeScript.Kind
import ProbeScript.Number.Text

/-!
# Fault — broken invariants

A fault is a mistake of the program that uses the library, not of the script it works on.  An
operation that runs into one stops there.  All faults but one are raised by a check, under the name
and with the text given here.  The one apart is `Fault.endlessDescent`, for which there is no check:
it stands for a descent that uses up the stack of the machine.
-/

namespace ProbeScript

/-- What can be wrong with a request. -/
inductive Fault where
  /-- A live node is to be adopted. -/
  | adoptedTwice (kind : Kind)
  /-- A node that is not live is to be released. -/
  | notLive (kind : Kind)
  /-- A node that has a parent or a successor is to be appended to a chain. -/
  | alreadyLinked (kind : Kind)
  /-- The last node of a chain is to be appended to that chain. -/
  | ownChain (kind : Kind)
  /-- An integer literal is no safe integer. -/
  | notWhole (value : Number)
  /-- An unroll count is no natural number, or not a safe one. -/
  | badUnrollCount (count : Number)
  /-- A size on the stack is no positive integer. -/
  | badStackSize (size : Number)
  /-- The statement around a node is asked for outside any probe. -/
  | outsideProbe (kind : Kind)
  /-- A stack value is to be dumped. -/
  | stackDump
  /-- A node lies below itself, and a descent from it does not end.  Nothing checks for that and no
  report has this fault: the machine runs out of stack.  It is here so that a walk over any forest
  has an outcome. -/
  | endlessDescent
  deriving DecidableEq

namespace Fault

/-- The name under which a fault is reported, the same for all. -/
def name (_ : Fault) : String := "InternalError"

/-- The text of a fault.  That of an endless descent is never reported. -/
def message : Fault → String
  | adoptedTwice kind => "Node <" ++ kind.name ++ "> adopted twice."
  | notLive kind => "Node <" ++ kind.name ++ "> released but not live."
  | alreadyLinked kind => "Node <" ++ kind.name ++ "> is already linked."
  | ownChain kind => "Node <" ++ kind.name ++ "> appended to its own chain."
  | notWhole value => "Integer literal must be a whole number (got " ++ value.text ++ ")."
  | badUnrollCount count =>
    "Unroll count must be a non-negative integer (got " ++ count.text ++ ")."
  | badStackSize size =>
    "Stack allocation size must be a positive integer (got " ++ size.text ++ ")."
  | outsideProbe kind => "<" ++ kind.name ++ "> node is not inside a probe."
  | stackDump => "Stack values only exist after code generation and cannot be dumped."
  | endlessDescent => "A node lies below itself."

end Fault

/-- The types of things that can be raised, faults among them. -/
class Raises (ε : Type) where
  /-- A fault as a thing raised. -/
  fault : Fault → ε

instance : Raises Fault := ⟨id⟩

end ProbeScript
