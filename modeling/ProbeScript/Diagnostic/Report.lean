import ProbeScript.Diagnostic.Basic
import ProbeScript.Text.Collation

/-!
# Diagnostic/Report — diagnostics in a stable order

A report lists diagnostics by file, the worst first within a file, then by identifier and by text.
Diagnostics that agree in all four stay in the order they came in.
-/

namespace ProbeScript

namespace Diagnostic

/-- Comparison of two diagnostics by their places in a report. -/
def compare (a b : Diagnostic) : Ordering :=
  (Text.collate a.file b.file).then <|
  (Text.compareWeights a.severity.rank b.severity.rank).then <|
  (Text.collate a.id b.id).then (Text.collate a.message b.message)

/-- The diagnostics in the order of a report. -/
def sort (diagnostics : List Diagnostic) : List Diagnostic :=
  diagnostics.mergeSort fun a b => (a.compare b).isLE

end Diagnostic

/-- A report: the chunks written, one line each, and whether there is an error among them. -/
structure Report where
  chunks : List String
  failed : Bool
  deriving DecidableEq

namespace Report

/-- The report of diagnostics that are in order already. -/
def ofSorted (sorted : List Diagnostic) : Report where
  chunks := sorted.map fun d => d.format ++ "\n"
  failed := hasErrors sorted

/-- The report of a list of diagnostics. -/
def ofDiagnostics (diagnostics : List Diagnostic) : Report := ofSorted (Diagnostic.sort diagnostics)

end Report

end ProbeScript
