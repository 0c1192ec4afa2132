/-!
# Diagnostic/Basic — messages about a script

A diagnostic is what the author of a script is told: a stable identifier, a severity, a text and the
file it is about.
-/

namespace ProbeScript

/-- How bad a diagnostic is. -/
inductive Severity where
  | error
  | warning
  | info
  deriving DecidableEq

namespace Severity

/-- The name of a severity. -/
def name : Severity → String
  | error => "error"
  | warning => "warning"
  | info => "info"

/-- The severity of a name. -/
def ofName? (s : String) : Option Severity := [error, warning, info].find? (·.name == s)

/-- The place of a severity in a report, the worst first. -/
def rank : Severity → Nat
  | error => 0
  | warning => 1
  | info => 2

end Severity

/-- What the library itself reports. -/
inductive DiagnosticId where
  /-- The script file cannot be read. -/
  | readFailed
  /-- The grammar raised something while it built the tree. -/
  | grammarRaised
  /-- The grammar built no tree. -/
  | noScript
  /-- A probe names a provider that is not registered. -/
  | unknownProvider
  /-- A pass answered a status other than zero. -/
  | passAborted
  /-- A probe has no scratch register left. -/
  | registersExhausted
  deriving DecidableEq

/-- The identifier by which other tools know a report. -/
def DiagnosticId.code : DiagnosticId → String
  | readFailed => "PRB001"
  | grammarRaised => "PRB002"
  | noScript => "PRB100"
  | unknownProvider => "PRB200"
  | passAborted => "PRB300"
  | registersExhausted => "PRB301"

/-- A message about a script.  Clients report under identifiers of their own as well. -/
structure Diagnostic where
  id : String
  severity : Severity
  message : String
  file : String
  deriving DecidableEq

namespace Diagnostic

/-- An error that the library reports. -/
def ofError (id : DiagnosticId) (message file : String) : Diagnostic :=
  ⟨id.code, .error, message, file⟩

/-- Whether a diagnostic is an error. -/
def isError (d : Diagnostic) : Bool := d.severity == .error

/-- The line that shows a diagnostic. -/
def format (d : Diagnostic) : String :=
  d.file ++ ": " ++ d.severity.name ++ ": [" ++ d.id ++ "] " ++ d.message

end Diagnostic

/-- Whether there is an error among the diagnostics. -/
def hasErrors (diagnostics : List Diagnostic) : Bool := diagnostics.any Diagnostic.isError

end ProbeScript
