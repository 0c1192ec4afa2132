/-!
# Frame/Registers — the scratch registers of a probe

A probe has three scratch registers, shared by two classes of values: static ones live as long as
the probe, dynamic ones as long as one expression.  Each class starts out with a pool of all three.
A register is granted while it is in both pools and then leaves the pool of the class that asked, so
that neither class is granted it again.
-/

namespace ProbeScript

/-- The classes of values kept in registers. -/
inductive RegisterClass where
  | static
  | dynamic
  deriving DecidableEq

/-- The other class. -/
def RegisterClass.other : RegisterClass → RegisterClass
  | static => dynamic
  | dynamic => static

/-- The scratch registers in the order in which they are tried. -/
def scratchRegisters : List Nat := [6, 7, 8]

/-- The pools of the two classes. -/
structure Registers where
  static : List Nat := scratchRegisters
  dynamic : List Nat := scratchRegisters
  deriving DecidableEq

namespace Registers

/-- The pool of a class. -/
def pool (r : Registers) : RegisterClass → List Nat
  | .static => r.static
  | .dynamic => r.dynamic

/-- Whether a class can be granted a register: its own pool and the other one hold it. -/
def isFree (r : Registers) (cls : RegisterClass) (register : Nat) : Bool :=
  (r.pool cls).contains register && (r.pool cls.other).contains register

/-- The registers that a class can still be granted, in order. -/
def available (r : Registers) (cls : RegisterClass) : List Nat :=
  scratchRegisters.filter (r.isFree cls)

/-- The pools after a register has left the one of a class. -/
def take (r : Registers) (register : Nat) : RegisterClass → Registers
  | .static => { r with static := r.static.erase register }
  | .dynamic => { r with dynamic := r.dynamic.erase register }

/-- Grants the first free register to a class; there is none once the file is exhausted. -/
def acquire (r : Registers) (cls : RegisterClass) : Option Nat × Registers :=
  match scratchRegisters.find? (r.isFree cls) with
  | some register => (some register, r.take register cls)
  | none => (none, r)

/-- The pool of a class as a mask: bit `n` is set while register `n` is in it. -/
def mask (r : Registers) (cls : RegisterClass) : Nat :=
  (r.pool cls).foldl (fun bits register => bits ||| 1 <<< register) 0

end Registers

end ProbeScript
