/-!
# Operator — the binary operators and their instructions

A comparison becomes a conditional jump, every other operator an arithmetic instruction.  The code
of an operator is unique within its class.
-/

namespace ProbeScript

/-- The class of instructions an operator becomes. -/
inductive InstructionClass where
  | jump
  | arithmetic
  deriving DecidableEq

/-- The binary operators. -/
inductive Operator where
  | eq
  | ne
  | gt
  | ge
  | lt
  | le
  | add
  | sub
  | mul
  | div
  | or
  | and
  | shiftLeft
  | shiftRight
  | mod
  | xor
  deriving DecidableEq

namespace Operator

/-- All operators, each once. -/
def all : List Operator :=
  [eq, ne, gt, ge, lt, le, add, sub, mul, div, or, and, shiftLeft, shiftRight, mod, xor]

/-- How an operator is written. -/
def symbol : Operator → String
  | eq => "=="
  | ne => "!="
  | gt => ">"
  | ge => ">="
  | lt => "<"
  | le => "<="
  | add => "+"
  | sub => "-"
  | mul => "*"
  | div => "/"
  | or => "|"
  | and => "&"
  | shiftLeft => "<<"
  | shiftRight => ">>"
  | mod => "%"
  | xor => "^"

/-- The operator of a symbol. -/
def ofSymbol? (s : String) : Option Operator := all.find? (·.symbol == s)

/-- The class of instructions an operator becomes. -/
def instructionClass : Operator → InstructionClass
  | eq | ne | gt | ge | lt | le => .jump
  | _ => .arithmetic

/-- The operation bits of an operator's instruction. -/
def code : Operator → Nat
  | eq => 0x10
  | ne => 0x50
  | gt => 0x60
  | ge => 0x70
  | lt => 0xc0
  | le => 0xd0
  | add => 0x00
  | sub => 0x10
  | mul => 0x20
  | div => 0x30
  | or => 0x40
  | and => 0x50
  | shiftLeft => 0x60
  | shiftRight => 0x70
  | mod => 0x90
  | xor => 0xa0

theorem ofSymbol?_symbol (o : Operator) : ofSymbol? o.symbol = some o := by cases o <;> decide

end Operator

end ProbeScript
