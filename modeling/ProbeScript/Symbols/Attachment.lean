import ProbeScript.Forest.Walk
import ProbeScript.Symbols.Basic

/-!
# Symbols/Attachment — giving maps and variables the records of their names

All maps and variables of one name share the record of that name.
-/

namespace ProbeScript

/-- A table and a ledger while records are attached, with the number of attachments made. -/
structure Attachment where
  symbols : SymbolTable
  ledger : Ledger
  count : Nat := 0

namespace Attachment

/-- Attaches the record of a name to a node. -/
def attach (s : Attachment) (n : NodeId) (name : String) : Attachment :=
  let (r, symbols, ledger) := s.symbols.recordFor s.ledger name
  { symbols, ledger := ledger.attach n r, count := s.count + 1 }

/-- Attaches the record of its name to a node that names a symbol. -/
def visit (f : Forest) : Visitor Fault Attachment := fun n s =>
  (.ok 0, ((f.shape n).symbol?.map (s.attach n)).getD s)

end Attachment

/-- Attaches records to all maps and variables below a node. -/
def Attachment.run (f : Forest) (root : NodeId) (s : Attachment) : Except Fault Unit × Attachment :=
  let (outcome, s) := f.walk root (some (visit f)) none s
  (outcome.map fun _ => (), s)

end ProbeScript
