import ProbeScript.Diagnostic.Basic
import ProbeScript.Ledger

/-!
# Provider/Resolution — finding the providers of a script's probes

Each probe in the chain of a script is given the provider its specification names.  A probe that
names none of those registered is reported and keeps what it had.
-/

namespace ProbeScript

/-- What comes of resolving: the ledger, the new reports, and how many probes have found a provider.
-/
structure Resolution where
  ledger : Ledger
  reports : List Diagnostic := []
  resolved : Nat := 0

namespace Resolution

/-- The report of a probe whose provider is not registered. -/
def unknown (spec file : String) : Diagnostic :=
  .ofError .unknownProvider
    ("Unknown provider \"" ++ Provider.nameOf spec ++ "\" in probe \"" ++ spec ++ "\".") file

/-- Resolves one node of the chain; only probes have a provider. -/
def step (f : Forest) (providers : List Provider) (file : String) (s : Resolution) (n : NodeId) :
    Resolution :=
  match f.shape n with
  | .probe spec _ _ =>
    match Provider.find? providers (Provider.nameOf spec) with
    | some provider =>
      { s with ledger := s.ledger.setProvider n provider, resolved := s.resolved + 1 }
    | none => { s with reports := s.reports ++ [unknown spec file] }
  | _ => s

end Resolution

/-- The chain of probes of a script. -/
def Forest.probesOf (f : Forest) (script : NodeId) : List NodeId :=
  match f.shape script with
  | .script probes => f.chain probes
  | _ => []

/-- Finds the providers of the probes of a script. -/
def Ledger.resolve (ledger : Ledger) (f : Forest) (script : NodeId) (providers : List Provider)
    (file : String) : Resolution :=
  (f.probesOf script).foldl (Resolution.step f providers file) { ledger }

end ProbeScript
