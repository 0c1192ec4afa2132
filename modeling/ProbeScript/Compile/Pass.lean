import ProbeScript.Forest.Walk
import ProbeScript.Grammar.Recipe
import ProbeScript.Number.Text
import ProbeScript.Symbols.Basic

/-!
# Compile/Pass — the stages after parsing

A pass is a walk over the script with callbacks that change notes, look up symbols and report
diagnostics.  Passes are run one after the other until one answers a status other than zero or there
is an error.
-/

namespace ProbeScript

/-- What callbacks can change: the ledger, the symbols, the diagnostics, and a state of the client's
own. -/
structure PassState (τ : Type) where
  ledger : Ledger
  symbols : SymbolTable
  diagnostics : List Diagnostic
  client : τ

/-- The state with one diagnostic more. -/
def PassState.report {τ : Type} (s : PassState τ) (d : Diagnostic) : PassState τ :=
  { s with diagnostics := s.diagnostics ++ [d] }

/-- What callbacks can only read: the forest, and the file the script is from. -/
structure Scope where
  forest : Forest
  file : String

/-- A callback of a pass. -/
abbrev PassVisitor (τ : Type) := Scope → Visitor Raised (PassState τ)

/-- A stage after parsing. -/
structure Pass (τ : Type) where
  name : String
  pre : Option (PassVisitor τ) := none
  post : Option (PassVisitor τ) := none

namespace Pass

variable {τ : Type}

/-- Walks over a script with the callbacks of a pass. -/
def run (pass : Pass τ) (scope : Scope) (script : NodeId) (s : PassState τ) :
    Progress Raised (PassState τ) :=
  scope.forest.walk script (pass.pre.map fun visitor => visitor scope)
    (pass.post.map fun visitor => visitor scope) s

/-- The report of a pass that answered a status other than zero. -/
def aborted (pass : Pass τ) (status : Status) (file : String) : Diagnostic :=
  .ofError .passAborted
    ("Pass \"" ++ pass.name ++ "\" aborted with status " ++ status.text ++ ".") file

/-- Runs passes in order while nothing is wrong. -/
def runAll (scope : Scope) (script : NodeId) :
    List (Pass τ) → PassState τ → Except Raised Unit × PassState τ
  | [], s => (.ok (), s)
  | pass :: rest, s =>
    match pass.run scope script s with
    | (.error what, s) => (.error what, s)
    | (.ok status, s) =>
      if !status.isZero then (.ok (), s.report (pass.aborted status scope.file))
      else if hasErrors s.diagnostics then (.ok (), s)
      else runAll scope script rest s

end Pass

end ProbeScript
