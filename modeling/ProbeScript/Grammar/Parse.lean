import ProbeScript.Grammar.Recipe

/-!
# Grammar/Parse — from text to a script

A grammar either delivers a script or the reason why there is none is among the diagnostics: what it
raised is reported, and so is that it built nothing, unless it reported something itself.
-/

namespace ProbeScript

/-- The report of something a grammar raised. -/
def Raised.report (what : Raised) (file : String) : Diagnostic :=
  .ofError .grammarRaised ("Internal error during parse: " ++ what.describe) file

/-- The report that a grammar built nothing. -/
def Diagnostic.noScript (file : String) : Diagnostic :=
  .ofError .noScript "Failed to parse script." file

/-- Has a grammar read a script. -/
def Grammar.parse {τ : Type} (grammar : Grammar τ) (file text : String) (s : Site τ) :
    Option NodeId × Site τ :=
  match (grammar file text).follow s with
  | (.ok (some script), t) => (some script, t)
  | (.ok none, t) =>
    (none, if t.diagnostics.length = s.diagnostics.length then t.report (.noScript file) else t)
  | (.error what, t) => (none, t.report (what.report file))

end ProbeScript
