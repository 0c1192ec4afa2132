import ProbeScript.Fault
import ProbeScript.Ledger
import ProbeScript.Text.Quoted

/-!
# Dump/Line — a node in one line

The line of a node says what the node is and then, in brackets, what is decided about its value.
Only stack values have no line.
-/

namespace ProbeScript

/-- The text of an integer literal: zero, or the word that represents it in hexadecimal. -/
def wordText (n : Int) : String :=
  if n = 0 then "0" else "0x" ++ Number.hexNat (n % 18446744073709551616).toNat

/-- What a node is, without a blank at the end. -/
def Shape.summary (shape : Shape) : Except Fault String :=
  match shape with
  | .probe spec _ _ => .ok spec
  | .map name _ => .ok name
  | .var name => .ok name
  | .assign _ _ => .ok "="
  | .binop operator _ _ => .ok operator.symbol
  | .unroll count _ => .ok ("unroll (" ++ toString count ++ ")")
  | .call module function _ _ => .ok (module.getD "<auto>" ++ "." ++ function)
  | .int n => .ok (wordText n)
  | .str value => .ok (Text.quoted value)
  | .stackValue => .error .stackDump
  | .script _ | .ifElse _ _ _ _ | .breakLoop | .continueLoop | .returnProbe | .method _ _
  | .negation _ | .record _ _ => .ok ("<" ++ shape.kind.name ++ ">")

/-- What is decided about the value of a node of a kind. -/
def Note.block (note : Note) (kind : Kind) : String :=
  "(type:" ++ kind.name ++ "/" ++ note.typeName ++ " size:0x" ++ note.size.hex ++ " loc:"
    ++ note.location.name ++ note.location.suffix ++ ")"

namespace Ledger

/-- The note shown for a node: an undecided one while no record is attached. -/
def shownNote (ledger : Ledger) (n : NodeId) : Note := (ledger.note? n).getD .unresolved

/-- The line of a node. -/
def line (ledger : Ledger) (f : Forest) (n : NodeId) : Except Fault String :=
  (f.shape n).summary.map fun summary => summary ++ " " ++ (ledger.shownNote n).block (f.kind n)

end Ledger

end ProbeScript
