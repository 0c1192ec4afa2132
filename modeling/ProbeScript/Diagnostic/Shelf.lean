import ProbeScript.Diagnostic.Report

/-!
# Diagnostic/Shelf — diagnostics in lists that are kept

Callers hand over a list that they go on using, so it is a copy of it that is put in order for a
report.  A shelf has the lists of a program where it keeps them, and shows which of them change.
-/

namespace ProbeScript

/-- The lists of diagnostics of a program, where it keeps them. -/
structure Shelf where
  lists : Array (List Diagnostic)

namespace Shelf

/-- The list at a place of the shelf. -/
def list (s : Shelf) (i : Nat) : List Diagnostic := s.lists.getD i []

/-- The shelf with a copy of a list put at its end. -/
def copy (s : Shelf) (i : Nat) : Shelf := ⟨s.lists.push (s.list i)⟩

/-- The shelf with a list put in the order of a report, where it lies. -/
def sort (s : Shelf) (i : Nat) : Shelf := ⟨s.lists.modify i Diagnostic.sort⟩

/-- The report of a list of the shelf, and the shelf after it. -/
def report (s : Shelf) (i : Nat) : Report × Shelf :=
  let s' := (s.copy i).sort s.lists.size
  (.ofSorted (s'.list s.lists.size), s')

end Shelf

end ProbeScript
