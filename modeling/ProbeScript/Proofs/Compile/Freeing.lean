import ProbeScript.Proofs.Arena.Custody
import ProbeScript.Proofs.Compile.Gating

/-!
# Proofs/Compile/Freeing — the tree of a script is freed at the end of its compilation

Neither symbols nor providers nor passes nor a dump touch the forest or the arena, so what is freed
at the end is what the grammar has built, however the passes went (`exists_dump_free_eq`).  It is
freed in full just when the descent meets every node once and finds it in the arena's custody.  A
node built elsewhere is one built and released again before (`Workshop.release_mint`).
-/

namespace ProbeScript

open Forest

variable {τ : Type}

namespace Pass

/-- At the nodes of a script, the callbacks of a pass raise nothing. -/
def Calm (pass : Pass τ) (scope : Scope) (script : NodeId) : Prop :=
  ∀ visitor ∈ pass.pre.toList ++ pass.post.toList, ∀ n ∈ scope.forest.preorder script, ∀ s,
    ∃ status t, visitor scope n s = (.ok status, t)

/-- Calm passes are run without anything raised, however many of them are. -/
theorem exists_runAll {scope : Scope} {script : NodeId} (hground : scope.forest.Grounded script) :
    ∀ {passes : List (Pass τ)}, (∀ pass ∈ passes, pass.Calm scope script) → ∀ s : PassState τ,
      ∃ t, runAll scope script passes s = (.ok (), t)
  | [], _, s => ⟨s, rfl⟩
  | pass :: passes, hcalm, s => by
    obtain ⟨status, t, hrun, -⟩ := pass.exists_run (R := fun _ _ => True) (fun _ => trivial)
      (fun _ _ _ _ _ => trivial) hground (fun visitor hvisitor n hn s => by
        obtain ⟨status, t, h⟩ := hcalm pass List.mem_cons_self visitor hvisitor n hn s
        exact ⟨status, t, h, trivial⟩) s
    rw [runAll, hrun]
    dsimp only
    split
    · exact ⟨_, rfl⟩
    · split
      · exact ⟨_, rfl⟩
      · exact exists_runAll hground
          (fun pass' hpass' => hcalm pass' (List.mem_cons_of_mem pass hpass')) t

end Pass

namespace Compilation

variable {c : Compilation τ} {script : NodeId} {file : String}

theorem exists_runPasses (hground : c.workshop.forest.Grounded script) {passes : List (Pass τ)}
    (hcalm : ∀ pass ∈ passes, pass.Calm ⟨c.workshop.forest, file⟩ script) :
    ∃ t, runPasses script passes file c = (.ok (), c.afterPasses t) := by
  rw [runPasses]
  split
  · exact ⟨c.passState, rfl⟩
  · obtain ⟨t, hrun⟩ := Pass.exists_runAll hground hcalm c.passState
    rw [passState] at hrun
    exact ⟨t, by rw [hrun]; rfl⟩

/-- The arena a grammar leaves owns what it holds going by the grammar's handovers. -/
theorem holds_parse (grammar : Grammar τ) (file text : String) (client : τ) :
    (Compilation.parse { client } grammar file text).2.workshop.arena.Holds
      ((grammar file text).handovers ⟨{}, [], client⟩) := by
  have hempty : (⟨{}, [], client⟩ : Site τ).workshop.arena.Holds [] := fun n => by
    simp [Arena.owns, Arena.entry?]
  have hholds := (grammar file text).holds_follow hempty
  rw [List.append_nil] at hholds
  have hworkshop : (Compilation.parse { client } grammar file text).2.workshop
      = ((grammar file text).follow ⟨{}, [], client⟩).2.workshop := by
    rw [parse, Grammar.parse]
    obtain ⟨outcome, t⟩ := (grammar file text).follow ⟨{}, [], client⟩
    cases outcome with
    | error what => rfl
    | ok script? =>
      cases script? with
      | some script => rfl
      | none =>
        dsimp only
        split <;> rfl
  rwa [hworkshop]

end Compilation

section Freeing

variable {c : Compilation τ} {script : NodeId} {file text : String} {options : Options}
  {grammar : Grammar τ} {passes : List (Pass τ)} {client : τ}

/-- **All that a compilation ends with is a dump and freeing**, of the forest and by the arena that
the grammar left.  What is there by then does not depend on whether there is to be a dump. -/
theorem exists_dump_free_eq
    (hparse : Compilation.parse { client } grammar file text = (some script, c))
    (hground : c.workshop.forest.Grounded script)
    (hcalm : ∀ pass ∈ passes, pass.Calm ⟨c.workshop.forest, file⟩ script)
    (providers : Option (List Provider)) :
    ∃ d, Compilation.runPasses script passes file (c.begun script providers file) = (.ok (), d) ∧
      d.workshop.forest = c.workshop.forest ∧ d.workshop.arena = c.workshop.arena ∧
      d.written = [] ∧ ∀ wanted,
        compileSource file text ⟨wanted, providers⟩ grammar passes client
          = (Compilation.dump script wanted).andThen (Compilation.free script) d := by
  have hforest := c.forest_begun script providers file
  have harena := c.arena_begun script providers file
  have hwritten : (c.begun script providers file).written = [] :=
    (c.written_begun script providers file).trans
      (congrArg (fun outcome => outcome.2.written) hparse).symm
  obtain ⟨t, hpasses⟩ : ∃ t, Compilation.runPasses script passes file
      (c.begun script providers file) = (.ok (), (c.begun script providers file).afterPasses t) :=
    Compilation.exists_runPasses (hforest ▸ hground) (hforest ▸ hcalm)
  refine ⟨_, hpasses, hforest, harena, hwritten, fun wanted => ?_⟩
  rw [compileSource, hparse]
  change Compilation.Part.andThen _ _ c = _
  rw [Compilation.andThen_of_ok (Compilation.attach_begun hground),
    Compilation.andThen_of_ok (Compilation.resolve_begun ..), Compilation.andThen_of_ok hpasses]

theorem exists_free_eq (hparse : Compilation.parse { client } grammar file text = (some script, c))
    (hground : c.workshop.forest.Grounded script)
    (hdump : options.dump = false ∨
      ∀ n ∈ c.workshop.forest.preorder script, c.workshop.forest.shape n ≠ .stackValue)
    (hcalm : ∀ pass ∈ passes, pass.Calm ⟨c.workshop.forest, file⟩ script) :
    ∃ d, compileSource file text options grammar passes client = Compilation.free script d ∧
      d.workshop.forest = c.workshop.forest ∧ d.workshop.arena = c.workshop.arena := by
  obtain ⟨d, -, hforest, harena, -, hcompile⟩ :=
    exists_dump_free_eq hparse hground hcalm options.providers
  obtain ⟨written, hwritten⟩ :=
    Compilation.exists_dump (hforest ▸ hground) (hforest ▸ hdump)
  exact ⟨_, (hcompile options.dump).trans (Compilation.andThen_of_ok hwritten), hforest, harena⟩

/-- **A compilation comes to an answer just when the descent from its script meets no node twice and
finds every node in custody**: built or adopted, and not released since.  The answer is then the
number of nodes met, and the arena is left with the nodes in custody that the descent does not meet.
Otherwise it ends with the fault of a node that was to be released but is not owned.  Nothing of
this depends on the options, the passes or the diagnostics. -/
theorem compileSource_frees
    (hparse : Compilation.parse { client } grammar file text = (some script, c))
    (hground : c.workshop.forest.Grounded script)
    (hdump : options.dump = false ∨
      ∀ n ∈ c.workshop.forest.preorder script, c.workshop.forest.shape n ≠ .stackValue)
    (hcalm : ∀ pass ∈ passes, pass.Calm ⟨c.workshop.forest, file⟩ script) :
    let log := (grammar file text).handovers ⟨{}, [], client⟩
    let met := c.workshop.forest.preorder script
    let outcome := compileSource file text options grammar passes client
    ((∃ released final, outcome = (.ok released, final)) ↔ met.Nodup ∧ ∀ n ∈ met, Held log n) ∧
    (∀ released final, outcome = (.ok released, final) → released = met.length ∧
      ∀ n, final.workshop.arena.owns n = true ↔ Held log n ∧ n ∉ met) ∧
    (¬ (met.Nodup ∧ ∀ n ∈ met, Held log n) → ∃ n ∈ met, ∃ final,
      outcome = (.error (.fault (.notLive (c.workshop.forest.kind n))), final)) := by
  intro log met outcome
  have hholds : c.workshop.arena.Holds log := by
    have h := Compilation.holds_parse grammar file text client
    rwa [hparse] at h
  obtain ⟨d, hfree, hforest, harena⟩ := exists_free_eq hparse hground hdump hcalm
  have hperm := hground.postorder_perm
  rcases c.workshop.arena.free_outcome hground with
    ⟨a, hall, h⟩ | ⟨before, n, after, a, hsplit, hsome, hn, h⟩
  · have houtcome : outcome
        = (.ok met.length, { d with workshop := { d.workshop with arena := a } }) := by
      rw [show outcome = _ from hfree, Compilation.free, hforest, harena, h]
      rfl
    have hmet : met.Nodup ∧ ∀ n ∈ met, Held log n :=
      ⟨hperm.nodup_iff.mp hall.nodup,
        fun n hn => (hholds n).mp (hall.owned n (hperm.mem_iff.mpr hn))⟩
    refine ⟨iff_of_true ⟨_, _, houtcome⟩ hmet, ?_, fun hnot => absurd hmet hnot⟩
    intro released final hfinal
    obtain ⟨hreleased, rfl⟩ := Prod.mk.inj (houtcome.symm.trans hfinal)
    refine ⟨(Except.ok.inj hreleased).symm, fun n => ?_⟩
    rw [← hholds n, ← hperm.mem_iff]
    exact hall.owns_iff
  · have houtcome : outcome = (.error (.fault (.notLive (c.workshop.forest.kind n))),
        { d with workshop := { d.workshop with arena := a } }) := by
      rw [show outcome = _ from hfree, Compilation.free, hforest, harena, h]
      rfl
    have hfailed (released : Nat) (final : Compilation τ) : outcome ≠ (.ok released, final) := by
      rw [houtcome]
      intro h
      cases h
    have hnot : ¬ (met.Nodup ∧ ∀ n ∈ met, Held log n) := by
      rintro ⟨hnodup, hheld⟩
      obtain ⟨b, -, hb⟩ := Arena.exists_free hground hnodup fun m hm => (hholds m).mpr (hheld m hm)
      rw [h] at hb
      cases hb
    have hmem : n ∈ met := hperm.mem_iff.mp (hsplit ▸ List.mem_append_right _ List.mem_cons_self)
    refine ⟨iff_of_false ?_ hnot, ?_, fun _ => ⟨n, hmem, _, houtcome⟩⟩
    · rintro ⟨released, final, hfinal⟩
      exact hfailed released final hfinal
    · exact fun released final hfinal => absurd hfinal (hfailed released final)

/-- A grammar that assigns to a map without key, builds a variable that it leaves unused, and takes
back the statement it builds first. -/
def tallyGrammar : Grammar Unit := fun _ _ => do
  let _ ← .take (.construct .breakLoop)
  let _ ← .take (.release 0)
  let map ← .take (.construct (.map "hits" none))
  let _ ← .take (.construct (.var "spare"))
  let statement ← .take (.construct (.assign (map.getD 0) none))
  let probe ← .take (.construct (.probe "timer:tick" none statement))
  .take (.construct (.script probe))

/-- What the grammar leaves. -/
def tallied : Compilation Unit := (Compilation.parse { client := () } tallyGrammar "f" "").2

/-- A pass that reports an error at each node and stops at the second one. -/
def tallyPass : Pass Unit where
  name := "stop"
  pre := some fun scope n s =>
    (.ok (if n = 6 then 1 else 0), s.report ⟨"E1", .error, "Seen.", scope.file⟩)

/-- The key of the map and the string in that key are released too, and the variable left unused is
all that the arena still owns. -/
theorem compileSource_frees_tally : ∃ final,
    compileSource "f" "" probeOptions tallyGrammar [tallyPass] () = (.ok 6, final) ∧
      ∀ n, final.workshop.arena.owns n = true ↔ n = 4 := by
  have hparse : Compilation.parse { client := () } tallyGrammar "f" "" = (some 7, tallied) :=
    Prod.ext (by decide +kernel) rfl
  have hmet : tallied.workshop.forest.preorder 7 = [7, 6, 5, 3, 2, 1] := by decide +kernel
  have hlog : (tallyGrammar "f" "").handovers ⟨{}, [], ()⟩
      = [.taken 7, .taken 6, .taken 5, .taken 4, .taken 3, .taken 2, .taken 1, .released 0,
        .taken 0] := by decide +kernel
  have hcalm : ∀ pass ∈ [tallyPass], pass.Calm ⟨tallied.workshop.forest, "f"⟩ 7 := by
    intro pass hpass visitor hvisitor n _ s
    obtain rfl := List.mem_singleton.mp hpass
    obtain rfl := List.mem_singleton.mp hvisitor
    exact ⟨_, _, rfl⟩
  obtain ⟨hok, hfinal, -⟩ := compileSource_frees hparse (by decide +kernel)
    (show probeOptions.dump = false ∨ _ from .inr (by decide +kernel)) hcalm
  rw [hmet, hlog] at hok hfinal
  obtain ⟨released, final, hcompile⟩ := hok.mpr (by decide)
  obtain ⟨rfl, howns⟩ := hfinal released final hcompile
  refine ⟨final, hcompile, fun n => ?_⟩
  rw [howns n]
  simp only [held_taken, held_released, not_held_nil, List.mem_cons, List.not_mem_nil]
  grind

end Freeing

end ProbeScript
