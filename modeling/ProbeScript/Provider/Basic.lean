/-!
# Provider — the sources of events a probe can attach to

The specification of a probe begins with the name of its provider, up to the first colon.
-/

namespace ProbeScript

/-- A registered source of events.  The handle tells apart the ones registered under one name. -/
structure Provider where
  name : String
  handle : Nat
  deriving DecidableEq

namespace Provider

/-- The name of the provider a probe specification asks for: what stands before the first colon, or
all of it. -/
def nameOf (spec : String) : String := String.ofList (spec.toList.takeWhile (· ≠ ':'))

/-- The provider of a name; the one registered last wins. -/
def find? (providers : List Provider) (name : String) : Option Provider :=
  providers.reverse.find? (·.name == name)

end Provider

end ProbeScript
