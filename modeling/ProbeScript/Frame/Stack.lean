import ProbeScript.Fault
import ProbeScript.Number.Rounding

/-!
# Frame/Stack — the stack of a probe

Storage on the stack of a probe is handed out from the top of the frame downwards and is never taken
back.  Offsets are binary64 values, so far below the top they are rounded.
-/

namespace ProbeScript

/-- A stack: the offset of the lowest region handed out, zero at first. -/
structure Stack where
  offset : Number := .ofInt 0
  deriving DecidableEq

namespace Stack

/-- Whether a size can be asked for: a positive integer. -/
def accepts (size : Number) : Bool := size.toInt?.any (0 < ·)

/-- Hands out a region of the given size just below the lowest one.  The region begins at the offset
of the stack that comes back. -/
def acquire (s : Stack) (size : Number) : Except Fault Stack :=
  if accepts size then .ok ⟨s.offset - size⟩ else .error (.badStackSize size)

end Stack

end ProbeScript
