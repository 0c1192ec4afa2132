import ProbeScript.Proofs.Compile.Freeing
import ProbeScript.Proofs.Dump.Drawn

/-!
# Proofs/Compile/Dumped — a dump is one chunk or none, and shows without being felt

A diagram goes wrong at the first stack value that is met, whatever has been drawn by then
(`Store.diagram_of_stackValue`), and only the finished diagram is written.  What a compilation
does before and after its dump is the same with and without (`exists_dump_free_eq`), so the chunk is
all that a dump adds.
-/

namespace ProbeScript

open Forest

variable {f : Forest} {n m : NodeId} {τ : Type}

/-! ## Descents that meet a stack value -/

theorem Ledger.line_of_stackValue (l : Ledger) (h : f.shape n = .stackValue) :
    l.line f n = .error .stackDump := by
  rw [line, h]
  rfl

/-- There is only one thing that can be wrong with a line. -/
theorem Ledger.eq_stackDump_of_line {l : Ledger} {fault : Fault} (h : l.line f n = .error fault) :
    fault = .stackDump := by
  by_cases hstack : f.shape n = .stackValue
  · rw [l.line_of_stackValue hstack] at h
    exact (Except.error.inj h).symm
  · obtain ⟨line, hline⟩ := l.exists_line hstack
    rw [hline] at h
    cases h

namespace Store

variable (s : Store)

/-- **A stack value spoils the diagram**, however far down it is and whatever is drawn before. -/
theorem diagram_of_stackValue (h : s.forest.Grounded n) (hm : m ∈ s.forest.preorder n)
    (hstack : s.forest.shape m = .stackValue) : s.diagram n = .error .stackDump := by
  rw [diagram, h.walk_eq_runEvents]
  rcases runEvents_outcome (some (Drawing.enter s.forest s.ledger)) (some Drawing.leave)
    (s.forest.euler n) {} with ⟨t, hpass, -⟩ | ⟨before, e, after, t, -, -, hstop, hrun⟩
  · -- The event of the stack value does not go on.
    obtain ⟨u, v, status, -, hgoes⟩ := hpass.exists_goesTo (s.forest.enter_mem_euler hm)
    rw [Event.run, Visitor.run, Drawing.enter, s.ledger.line_of_stackValue hstack] at hgoes
    cases hgoes
  · rw [hrun]
    rcases e with k | k
    · rw [Event.run, Visitor.run, Drawing.enter] at hstop ⊢
      rcases hline : s.ledger.line s.forest k with fault | line
      · rw [Ledger.eq_stackDump_of_line hline]
        rfl
      · rw [hline] at hstop
        exact absurd hstop (Progress.not_stops_go _)
    · exact absurd hstop (Progress.not_stops_go _)

end Store

/-! ## Compilations -/

namespace Compilation

variable {c : Compilation τ}

/-- **A dump writes one chunk or meets a fault**, and then it has written nothing. -/
theorem dump_cases (h : c.workshop.forest.Grounded n) :
    ((∃ m ∈ c.workshop.forest.preorder n, c.workshop.forest.shape m = .stackValue) →
      c.workshop.toStore.diagram n = .error .stackDump ∧
      c.workshop.toStore.dump n = .error .stackDump ∧
      dump n true c = (.error (.fault .stackDump), c)) ∧
    ((∀ m ∈ c.workshop.forest.preorder n, c.workshop.forest.shape m ≠ .stackValue) →
      ∃ text, c.workshop.toStore.diagram n = .ok text ∧
        c.workshop.toStore.dump n = .ok [text] ∧
        dump n true c = (.ok (), { c with written := c.written ++ [text] })) := by
  refine ⟨fun ⟨m, hm, hstack⟩ => ?_, fun hstack => ?_⟩
  · have hdiagram := c.workshop.toStore.diagram_of_stackValue h hm hstack
    have hdump : c.workshop.toStore.dump n = .error .stackDump := by
      rw [Store.dump, hdiagram]
      rfl
    exact ⟨hdiagram, hdump, by rw [dump, if_pos rfl, hdump]⟩
  · have hdiagram := Store.diagram_eq_drawn h hstack
    have hdump := congrArg (Except.map fun text => [text]) hdiagram
    exact ⟨_, hdiagram, hdump, by rw [dump, if_pos rfl, Store.dump, hdiagram]; rfl⟩

/-- Freeing does not heed what was written. -/
theorem free_written (c : Compilation τ) (n : NodeId) (written : List String) :
    free n { c with written } = ((free n c).1, { (free n c).2 with written }) := rfl

end Compilation

/-- **A dump is whole or not there at all, and otherwise not felt.**  Of a descent that ends and
meets a stack value nothing is written, and any other is written as its diagram, in one chunk.  With
calm passes a compilation without a dump ends with freeing the tree as the passes leave it.  With a
dump it ends right after the passes with the fault, where there is a stack value, and otherwise it
comes to the same outcome and the same end but for the chunk, which is drawn from what the passes
leave. -/
theorem dump_whole_or_not :
    (∀ {τ : Type} (c : Compilation τ) (n : NodeId), c.workshop.forest.Grounded n →
      ((∃ m ∈ c.workshop.forest.preorder n, c.workshop.forest.shape m = .stackValue) →
        c.workshop.toStore.diagram n = .error .stackDump ∧
        c.workshop.toStore.dump n = .error .stackDump ∧
        Compilation.dump n true c = (.error (.fault .stackDump), c)) ∧
      ((∀ m ∈ c.workshop.forest.preorder n, c.workshop.forest.shape m ≠ .stackValue) →
        ∃ text, c.workshop.toStore.diagram n = .ok text ∧
          c.workshop.toStore.dump n = .ok [text] ∧
          Compilation.dump n true c = (.ok (), { c with written := c.written ++ [text] }))) ∧
    ∀ {τ : Type} (file text : String) (providers : Option (List Provider)) (grammar : Grammar τ)
      (passes : List (Pass τ)) (client : τ) (script : NodeId) (c : Compilation τ),
      Compilation.parse { client } grammar file text = (some script, c) →
      c.workshop.forest.Grounded script →
      (∀ pass ∈ passes, pass.Calm ⟨c.workshop.forest, file⟩ script) →
      let compile wanted := compileSource file text ⟨wanted, providers⟩ grammar passes client
      ∃ d, Compilation.runPasses script passes file (c.begun script providers file) = (.ok (), d) ∧
        compile false = Compilation.free script d ∧
        (compile false).2.passState = d.passState ∧ (compile false).2.written = [] ∧
        ((∃ n ∈ c.workshop.forest.preorder script, c.workshop.forest.shape n = .stackValue) →
          compile true = (.error (.fault .stackDump), d) ∧ d.written = []) ∧
        ((∀ n ∈ c.workshop.forest.preorder script, c.workshop.forest.shape n ≠ .stackValue) →
          ∃ chunk, d.workshop.toStore.diagram script = .ok chunk ∧
            compile true = ((compile false).1, { (compile false).2 with written := [chunk] })) := by
  refine ⟨fun c n => Compilation.dump_cases, ?_⟩
  intro τ file text providers grammar passes client script c hparse hground hcalm compile
  obtain ⟨d, hpasses, hforest, -, hwritten, hcompile⟩ :=
    exists_dump_free_eq hparse hground hcalm providers
  have hoff : compile false = Compilation.free script d := hcompile false
  obtain ⟨hspoilt, hwhole⟩ := Compilation.dump_cases (c := d) (hforest ▸ hground)
  refine ⟨d, hpasses, hoff, hoff ▸ rfl, (congrArg (·.2.written) hoff).trans hwritten,
    fun hstack => ⟨?_, hwritten⟩, fun hstack => ?_⟩
  · rw [show compile true = _ from hcompile true, Compilation.Part.andThen,
      (hspoilt (hforest ▸ hstack)).2.2]
  · obtain ⟨chunk, hdiagram, -, hdump⟩ := hwhole (hforest ▸ hstack)
    refine ⟨chunk, hdiagram, ?_⟩
    rw [show compile true = _ from hcompile true, Compilation.andThen_of_ok hdump, hoff,
      Compilation.free_written, hwritten, List.nil_append]

/-- A grammar that builds a script of one probe, with a stack value for its only statement. -/
def spoiltGrammar : Grammar Unit := fun _ _ => do
  let value ← .take (.construct .stackValue)
  let probe ← .take (.construct (.probe "timer:tick" none value))
  .take (.construct (.script probe))

theorem calm_probePasses (scope : Scope) (script : NodeId) :
    ∀ pass ∈ probePasses, pass.Calm scope script := fun pass hpass visitor hvisitor n hn s => by
  obtain ⟨status, t, hrun, -⟩ := quiet_probePasses scope script pass hpass visitor hvisitor n hn s
  exact ⟨status, t, hrun⟩

/-- With the stack value the passes are run, up to the one that stops, and nothing is written.
Without it one chunk is all that the dump adds. -/
theorem dump_whole_or_not_spoilt :
    (∃ d, compileSource "f" "" { dump := true } spoiltGrammar probePasses ()
        = (.error (.fault .stackDump), d) ∧ d.written = [] ∧
      d.diagnostics = List.replicate 3 ⟨"N1", .info, "Seen.", "f"⟩
        ++ [Pass.aborted { name := "stop" } 3 "f" (τ := Unit)]) ∧
    ∃ d chunk, compileSource "f" "" {} probeGrammar probePasses () = (.ok 2, d) ∧
      compileSource "f" "" { dump := true } probeGrammar probePasses ()
        = (.ok 2, { d with written := [chunk] }) := by
  obtain ⟨d, -, -, -, -, hspoilt, -⟩ := dump_whole_or_not.2 "f" "" none spoiltGrammar probePasses ()
    2 _ rfl (by decide) (calm_probePasses _ 2)
  obtain ⟨hstopped, hwritten⟩ := hspoilt (by decide)
  have hd : d = (compileSource "f" "" { dump := true } spoiltGrammar probePasses ()).2 :=
    congrArg Prod.snd hstopped.symm
  obtain ⟨d', -, -, -, -, -, hwhole⟩ := dump_whole_or_not.2 "f" "" none probeGrammar probePasses ()
    1 _ rfl (by decide) (calm_probePasses _ 1)
  obtain ⟨chunk, -, hdumped⟩ := hwhole (by decide)
  exact ⟨⟨d, hstopped, hwritten, hd ▸ rfl⟩, _, chunk, rfl, hdumped⟩

end ProbeScript
