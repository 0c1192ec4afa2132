import ProbeScript.Ledger

/-!
# Symbols/Basic — one record per name

A symbol table keeps a record for each name, made when the name is first asked for.  The records
belong to the table and not to the nodes they are attached to, and they outlive the tree.
-/

namespace ProbeScript

/-- The records of the names met so far, in the order of their first use. -/
structure SymbolTable where
  entries : List (String × RecordId) := []
  deriving DecidableEq

namespace SymbolTable

/-- The record of a name met before. -/
def get? (t : SymbolTable) (name : String) : Option RecordId :=
  (t.entries.find? fun entry => entry.1 == name).map Prod.snd

/-- The names met so far, in the order of their first use. -/
def names (t : SymbolTable) : List String := t.entries.map Prod.fst

/-- How many names have been met. -/
def size (t : SymbolTable) : Nat := t.entries.length

/-- The record of a name, made on its first use. -/
def recordFor (t : SymbolTable) (ledger : Ledger) (name : String) :
    RecordId × SymbolTable × Ledger :=
  match t.get? name with
  | some r => (r, t, ledger)
  | none =>
    let (r, ledger) := ledger.create {}
    (r, ⟨t.entries ++ [(name, r)]⟩, ledger)

end SymbolTable

end ProbeScript
