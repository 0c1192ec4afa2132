import ProbeScript.Arena.Freeing
import ProbeScript.Compile.Pass
import ProbeScript.Dump.Diagram
import ProbeScript.Grammar.Parse
import ProbeScript.Provider.Resolution
import ProbeScript.Symbols.Attachment

/-!
# Compile/Source — from the text of a script to what is known about it

A script is parsed, its symbols are attached, its providers are found, the passes are run over it,
it is dumped if that is asked for, and its tree is freed.  The symbols outlive the tree.
-/

namespace ProbeScript

/-- What influences a compilation.  Without a list of providers none are looked for. -/
structure Options where
  dump : Bool := false
  providers : Option (List Provider) := none

/-- A compilation under way: all nodes and records, the symbols, the diagnostics, the chunks
written, and a state of the client's own. -/
structure Compilation (τ : Type) where
  workshop : Workshop := {}
  symbols : SymbolTable := {}
  diagnostics : List Diagnostic := []
  written : List String := []
  client : τ

namespace Compilation

variable {τ : Type}

/-- Has a grammar read the script. -/
def parse (c : Compilation τ) (grammar : Grammar τ) (file text : String) :
    Option NodeId × Compilation τ :=
  let (script, site) := grammar.parse file text ⟨c.workshop, c.diagnostics, c.client⟩
  (script, { c with
    workshop := site.workshop, diagnostics := site.diagnostics, client := site.client })

/-- The compilation with another ledger. -/
def withLedger (c : Compilation τ) (ledger : Ledger) : Compilation τ :=
  { c with workshop := { c.workshop with ledger } }

/-- A part of a compilation; where something is raised the parts after it are left out. -/
abbrev Part (τ α : Type) := Compilation τ → Except Raised α × Compilation τ

/-- One part and then another. -/
def Part.andThen {α β : Type} (first : Part τ α) (second : Part τ β) : Part τ β := fun c =>
  match first c with
  | (.ok _, c) => second c
  | (.error what, c) => (.error what, c)

/-- Attaches the records of symbols. -/
def attach (script : NodeId) : Part τ Unit := fun c =>
  let (outcome, s) := Attachment.run c.workshop.forest script ⟨c.symbols, c.workshop.ledger, 0⟩
  (outcome.mapError .fault, { c.withLedger s.ledger with symbols := s.symbols })

/-- Finds the providers of probes. -/
def resolve (script : NodeId) (providers : Option (List Provider)) (file : String) : Part τ Unit :=
  fun c =>
    match providers with
    | none => (.ok (), c)
    | some providers =>
      let s := c.workshop.ledger.resolve c.workshop.forest script providers file
      (.ok (), { c.withLedger s.ledger with diagnostics := c.diagnostics ++ s.reports })

/-- Runs the passes, unless there is an error already. -/
def runPasses (script : NodeId) (passes : List (Pass τ)) (file : String) : Part τ Unit := fun c =>
  if hasErrors c.diagnostics then (.ok (), c)
  else
    let (outcome, s) := Pass.runAll ⟨c.workshop.forest, file⟩ script passes
      ⟨c.workshop.ledger, c.symbols, c.diagnostics, c.client⟩
    (outcome, { c.withLedger s.ledger with
      symbols := s.symbols, diagnostics := s.diagnostics, client := s.client })

/-- Dumps the tree if that is asked for. -/
def dump (script : NodeId) (wanted : Bool) : Part τ Unit := fun c =>
  if wanted then
    match c.workshop.toStore.dump script with
    | .ok chunks => (.ok (), { c with written := c.written ++ chunks })
    | .error fault => (.error (.fault fault), c)
  else (.ok (), c)

/-- Frees the tree; the answer is the number of nodes released. -/
def free (script : NodeId) : Part τ Nat := fun c =>
  let (outcome, arena) := c.workshop.arena.free c.workshop.forest script
  (outcome.mapError .fault, { c with workshop := { c.workshop with arena } })

end Compilation

/-- Compiles the text of a script.  The answer is the number of nodes released, zero where nothing
was parsed. -/
def compileSource {τ : Type} (file text : String) (options : Options) (grammar : Grammar τ)
    (passes : List (Pass τ)) (client : τ) : Except Raised Nat × Compilation τ :=
  match Compilation.parse { client } grammar file text with
  | (none, c) => (.ok 0, c)
  | (some script, c) =>
    (Compilation.attach script).andThen
      ((Compilation.resolve script options.providers file).andThen
        ((Compilation.runPasses script passes file).andThen
          ((Compilation.dump script options.dump).andThen (Compilation.free script)))) c

end ProbeScript
