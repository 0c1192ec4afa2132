import ProbeScript.Frame.Registers
import ProbeScript.Frame.Stack

/-!
# Frame/Basic — the storage of a probe

Every probe has scratch registers and a stack of its own, and a request for the one leaves the other
alone.
-/

namespace ProbeScript

/-- The storage of one probe. -/
structure Frame where
  registers : Registers := {}
  stack : Stack := {}
  deriving DecidableEq

namespace Frame

/-- Grants a register to a class. -/
def acquireRegister (f : Frame) (cls : RegisterClass) : Option Nat × Frame :=
  let (register, registers) := f.registers.acquire cls
  (register, { f with registers })

/-- Hands out a region of the stack: its offset, and the frame after that. -/
def acquireStack (f : Frame) (size : Number) : Except Fault (Number × Frame) :=
  (f.stack.acquire size).map fun stack => (stack.offset, { f with stack })

end Frame

end ProbeScript
