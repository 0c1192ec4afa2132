import ProbeScript.Diagnostic.Basic
import ProbeScript.Workshop.Step

/-!
# Grammar/Recipe — what a grammar does while it reads a script

A recipe says step by step what is done: steps taken in a workshop, diagnostics reported, a state of
the client's own changed.  It ends with an answer or raises something.  A recipe is a plain tree, so
a statement about all grammars is one about all recipes.
-/

namespace ProbeScript

/-- What can be raised: a fault, an error of the client's own, or a bare value. -/
inductive Raised where
  | fault (fault : Fault)
  | error (name message : String)
  | string (value : String)
  | number (value : Number)
  | flag (value : Bool)
  deriving DecidableEq

namespace Raised

/-- The text of an error: name and message, or the one that is not empty. -/
def errorText (name message : String) : String :=
  if message = "" then name else if name = "" then message else name ++ ": " ++ message

/-- The text of what was raised. -/
def describe : Raised → String
  | fault broken => errorText broken.name broken.message
  | error name message => errorText name message
  | string value => value
  | number value => value.text
  | flag value => if value then "true" else "false"

end Raised

instance : Raises Raised := ⟨.fault⟩

/-- What a recipe works on: a workshop, the diagnostics so far, and a state of the client's own. -/
structure Site (τ : Type) where
  workshop : Workshop
  diagnostics : List Diagnostic
  client : τ

/-- The site with one diagnostic more. -/
def Site.report {τ : Type} (s : Site τ) (d : Diagnostic) : Site τ :=
  { s with diagnostics := s.diagnostics ++ [d] }

/-- What is done step by step, over client states `τ`, to come to an answer in `α`. -/
inductive Recipe (τ α : Type) where
  | done (answer : α)
  | raise (what : Raised)
  | report (d : Diagnostic) (rest : Recipe τ α)
  | step (s : Step) (rest : Except Fault (Option NodeId) → Recipe τ α)
  | client (change : τ → τ) (rest : τ → Recipe τ α)

namespace Recipe

variable {τ α β : Type}

/-- One recipe and then the one its answer calls for. -/
def bind : Recipe τ α → (α → Recipe τ β) → Recipe τ β
  | done answer, next => next answer
  | raise what, _ => raise what
  | report d rest, next => report d (rest.bind next)
  | step s rest, next => step s fun outcome => (rest outcome).bind next
  | client change rest, next => client change fun state => (rest state).bind next

instance : Monad (Recipe τ) where
  pure := done
  bind := bind

/-- Follows a recipe.  What was done before something is raised stays done. -/
def follow : Recipe τ α → Site τ → Except Raised α × Site τ
  | done answer, s => (.ok answer, s)
  | raise what, s => (.error what, s)
  | report d rest, s => rest.follow (s.report d)
  | step taken rest, s =>
    let (outcome, workshop) := s.workshop.step taken
    (rest outcome).follow { s with workshop }
  | client change rest, s =>
    let state := change s.client
    (rest state).follow { s with client := state }

/-- Takes a step; a fault is raised. -/
def take (s : Step) : Recipe τ (Option NodeId) :=
  step s fun outcome =>
    match outcome with
    | .ok answer => done answer
    | .error fault => raise (.fault fault)

end Recipe

/-- A grammar: for the name and the text of a file, the recipe that builds its script. -/
abbrev Grammar (τ : Type) := (file text : String) → Recipe τ (Option NodeId)

end ProbeScript
