import ProbeScript.Proofs.Compile.Parts

/-!
# Proofs/Compile/Gating — how far the passes are run, and what is reported

Passes are run while nothing is wrong: the first one that answers a status other than zero, or after
which there is an error, is the last (`Stretch`).  Those behind it could be any others
(`Stretch.replace`).  An error that is there before the first pass bars them all.
-/

namespace ProbeScript

open Forest

namespace Pass

variable {τ : Type}

/-- At the nodes of a script, the callbacks of a pass raise nothing, and all they do to the
diagnostics is add some at the end. -/
def Quiet (pass : Pass τ) (scope : Scope) (script : NodeId) : Prop :=
  ∀ visitor ∈ pass.pre.toList ++ pass.post.toList, ∀ n ∈ scope.forest.preorder script, ∀ s,
    ∃ status t, visitor scope n s = (.ok status, t) ∧ s.diagnostics <+: t.diagnostics

/-- What becomes of passes from a state on: the ones run and the ones left out, what each of those
run pushed, the report if the last of them aborted, and the state it leaves. -/
inductive Stretch (scope : Scope) (script : NodeId) : PassState τ → List (Pass τ) → List (Pass τ) →
    List (List Diagnostic) → List Diagnostic → PassState τ → Prop where
  /-- No pass is left. -/
  | finished (s : PassState τ) : Stretch scope script s [] [] [] [] s
  /-- A pass answers zero and there is no error. -/
  | goesOn {pass : Pass τ} {ran rest : List (Pass τ)} {s t u : PassState τ} {status : Status}
      {pushed : List Diagnostic} {lists : List (List Diagnostic)} {aborted : List Diagnostic}
      (run : pass.run scope script s = (.ok status, t)) (zero : status.isZero = true)
      (pushes : t.diagnostics = s.diagnostics ++ pushed) (clean : hasErrors t.diagnostics = false)
      (others : Stretch scope script t ran rest lists aborted u) :
      Stretch scope script s (pass :: ran) rest (pushed :: lists) aborted u
  /-- A pass answers zero, but there is an error. -/
  | failed {pass : Pass τ} {s t : PassState τ} {status : Status} {pushed : List Diagnostic}
      (run : pass.run scope script s = (.ok status, t)) (zero : status.isZero = true)
      (pushes : t.diagnostics = s.diagnostics ++ pushed) (broken : hasErrors t.diagnostics = true)
      (rest : List (Pass τ)) : Stretch scope script s [pass] rest [pushed] [] t
  /-- A pass answers another status. -/
  | stopped {pass : Pass τ} {s t : PassState τ} {status : Status} {pushed : List Diagnostic}
      (run : pass.run scope script s = (.ok status, t)) (nonzero : status.isZero = false)
      (pushes : t.diagnostics = s.diagnostics ++ pushed) (rest : List (Pass τ)) :
      Stretch scope script s [pass] rest [pushed] [pass.aborted status scope.file] t

/-- What becomes of passes behind the gate: an error that is there already bars them all. -/
inductive Gated (scope : Scope) (script : NodeId) (s : PassState τ) : List (Pass τ) →
    List (Pass τ) → List (List Diagnostic) → List Diagnostic → PassState τ → Prop where
  | barred (broken : hasErrors s.diagnostics = true) (rest : List (Pass τ)) :
      Gated scope script s [] rest [] [] s
  | opened {ran rest : List (Pass τ)} {t : PassState τ} {lists : List (List Diagnostic)}
      {aborted : List Diagnostic} (clean : hasErrors s.diagnostics = false)
      (stretch : Stretch scope script s ran rest lists aborted t) :
      Gated scope script s ran rest lists aborted t

variable {scope : Scope} {script : NodeId} {pass : Pass τ} {ran rest : List (Pass τ)}
  {s t : PassState τ} {lists : List (List Diagnostic)} {aborted : List Diagnostic}

/-! ## One pass -/

/-- **The walk of a pass comes to an answer if its callbacks do**, and keeps what each of them
keeps. -/
theorem exists_run {R : PassState τ → PassState τ → Prop} (hrefl : ∀ s, R s s)
    (htrans : ∀ s t u, R s t → R t u → R s u) (hground : scope.forest.Grounded script)
    (h : ∀ visitor ∈ pass.pre.toList ++ pass.post.toList, ∀ n ∈ scope.forest.preorder script, ∀ s,
      ∃ status t, visitor scope n s = (.ok status, t) ∧ R s t) (s : PassState τ) :
    ∃ status t, pass.run scope script s = (.ok status, t) ∧ R s t := by
  have hcallback : ∀ callback : Option (PassVisitor τ),
      callback.toList ⊆ pass.pre.toList ++ pass.post.toList →
      ∀ n ∈ scope.forest.preorder script, ∀ s, ∃ status t,
        Visitor.run (callback.map fun visitor => visitor scope) n s = (.ok status, t) ∧ R s t := by
    intro callback hsub n hn s
    cases callback with
    | none => exact ⟨0, s, rfl, hrefl s⟩
    | some visitor => exact h visitor (hsub (List.mem_singleton_self visitor)) n hn s
  have hevent : ∀ e ∈ scope.forest.euler script, ∀ s, ∃ status t,
      e.run (pass.pre.map fun visitor => visitor scope) (pass.post.map fun visitor => visitor scope)
        s = (.ok status, t) ∧ R s t := by
    intro e he s
    cases e with
    | enter n =>
      have hn : n ∈ scope.forest.preorder script := List.mem_filterMap.mpr ⟨_, he, rfl⟩
      exact hcallback pass.pre (List.subset_append_left ..) n hn s
    | leave n =>
      have hn : n ∈ scope.forest.postorder script := List.mem_filterMap.mpr ⟨_, he, rfl⟩
      exact hcallback pass.post (List.subset_append_right ..) n
        (hground.postorder_perm.mem_iff.mp hn) s
  exact hground.exists_walk _ _ hrefl htrans hevent s

/-- The walk of a quiet pass comes to an answer, with some diagnostics pushed. -/
theorem Quiet.exists_run (h : pass.Quiet scope script) (hground : scope.forest.Grounded script)
    (s : PassState τ) : ∃ status t pushed, pass.run scope script s = (.ok status, t) ∧
      t.diagnostics = s.diagnostics ++ pushed := by
  obtain ⟨status, t, hrun, pushed, hpushed⟩ := Pass.exists_run
    (R := fun s t => s.diagnostics <+: t.diagnostics) (fun _ => List.prefix_refl _)
    (fun _ _ _ => List.IsPrefix.trans) hground h s
  exact ⟨status, t, pushed, hrun, hpushed.symm⟩

/-! ## One pass after the other -/

namespace Stretch

/-- What the passes run have pushed is added in order. -/
theorem diagnostics_eq (h : Stretch scope script s ran rest lists aborted t) :
    t.diagnostics = s.diagnostics ++ lists.flatten := by
  induction h with
  | finished s => exact (List.append_nil _).symm
  | goesOn _ _ pushes _ _ ih => rw [ih, pushes, List.flatten_cons, List.append_assoc]
  | failed _ _ pushes | stopped _ _ pushes => rw [pushes, List.flatten_singleton]

/-- The passes left out could be any others. -/
theorem replace (h : Stretch scope script s ran rest lists aborted t) (hrest : rest ≠ [])
    (others : List (Pass τ)) : Stretch scope script s ran others lists aborted t := by
  induction h with
  | finished => exact absurd rfl hrest
  | goesOn run zero pushes clean _ ih => exact .goesOn run zero pushes clean (ih hrest)
  | failed run zero pushes broken => exact .failed run zero pushes broken others
  | stopped run nonzero pushes => exact .stopped run nonzero pushes others

/-- **Running all passes is running a stretch of them**, with the report of the last one added. -/
theorem runAll_eq (h : Stretch scope script s ran rest lists aborted t) :
    runAll scope script (ran ++ rest) s
      = (.ok (), { t with diagnostics := t.diagnostics ++ aborted }) := by
  induction h with
  | finished s => simp [runAll]
  | goesOn run zero _ clean _ ih => simpa [runAll, run, zero, clean] using ih
  | failed run zero _ broken => simp [runAll, run, zero, broken]
  | stopped run nonzero => simp [runAll, run, nonzero, PassState.report]

end Stretch

theorem exists_stretch (hground : scope.forest.Grounded script) :
    ∀ {passes : List (Pass τ)}, (∀ pass ∈ passes, pass.Quiet scope script) → ∀ s : PassState τ,
      ∃ ran rest lists aborted t, passes = ran ++ rest ∧
        Stretch scope script s ran rest lists aborted t
  | [], _, s => ⟨[], [], [], [], s, rfl, .finished s⟩
  | pass :: passes, hquiet, s => by
    obtain ⟨status, t, pushed, hrun, hpushed⟩ :=
      (hquiet pass List.mem_cons_self).exists_run hground s
    cases hzero : status.isZero with
    | false => exact ⟨[pass], passes, _, _, t, rfl, .stopped hrun hzero hpushed passes⟩
    | true =>
      cases herrors : hasErrors t.diagnostics with
      | true => exact ⟨[pass], passes, _, _, t, rfl, .failed hrun hzero hpushed herrors passes⟩
      | false =>
        obtain ⟨ran, rest, lists, aborted, u, rfl, hstretch⟩ := exists_stretch hground
          (fun pass' hpass' => hquiet pass' (List.mem_cons_of_mem pass hpass')) t
        exact ⟨pass :: ran, rest, _, aborted, u, rfl, .goesOn hrun hzero hpushed herrors hstretch⟩

namespace Gated

theorem diagnostics_eq (h : Gated scope script s ran rest lists aborted t) :
    t.diagnostics = s.diagnostics ++ lists.flatten := by
  cases h with
  | barred => exact (List.append_nil _).symm
  | opened _ stretch => exact stretch.diagnostics_eq

/-- The passes left out could be any others. -/
theorem replace (h : Gated scope script s ran rest lists aborted t) (hrest : rest ≠ [])
    (others : List (Pass τ)) : Gated scope script s ran others lists aborted t := by
  cases h with
  | barred broken => exact .barred broken others
  | opened clean stretch => exact .opened clean (stretch.replace hrest others)

end Gated

theorem exists_gated {passes : List (Pass τ)} (hground : scope.forest.Grounded script)
    (hquiet : ∀ pass ∈ passes, pass.Quiet scope script) (s : PassState τ) :
    ∃ ran rest lists aborted t, passes = ran ++ rest ∧
      Gated scope script s ran rest lists aborted t := by
  cases herrors : hasErrors s.diagnostics with
  | true => exact ⟨[], passes, [], [], s, rfl, .barred herrors passes⟩
  | false =>
    obtain ⟨ran, rest, lists, aborted, t, hsplit, hstretch⟩ := exists_stretch hground hquiet s
    exact ⟨ran, rest, lists, aborted, t, hsplit, .opened herrors hstretch⟩

end Pass

/-! ## A compilation -/

namespace Compilation

variable {τ : Type}

/-- The compilation as it is when the passes are due: symbols attached and providers found. -/
def begun (c : Compilation τ) (script : NodeId) (providers : Option (List Provider))
    (file : String) : Compilation τ :=
  (resolve script providers file (attach script c).2).2

/-- What the passes of a compilation work on. -/
def passState (c : Compilation τ) : PassState τ :=
  ⟨c.workshop.ledger, c.symbols, c.diagnostics, c.client⟩

/-- The reports of the probes of a script that name none of the providers, if any are given. -/
def unknownProviders (c : Compilation τ) (script : NodeId) (providers : Option (List Provider))
    (file : String) : List Diagnostic :=
  match providers with
  | none => []
  | some providers => (c.workshop.forest.probesOf script).filterMap
      (Resolution.unknown? c.workshop.forest providers file)

/-- The nodes of a script are met once each, and the arena owns them all. -/
structure Owns (c : Compilation τ) (script : NodeId) : Prop where
  grounded : c.workshop.forest.Grounded script
  nodup : (c.workshop.forest.preorder script).Nodup
  owned : ∀ n ∈ c.workshop.forest.preorder script, c.workshop.arena.owns n = true

variable {c : Compilation τ} {script : NodeId} {file : String}

theorem diagnostics_begun (c : Compilation τ) (script : NodeId) (providers : Option (List Provider))
    (file : String) : (c.begun script providers file).diagnostics
      = c.diagnostics ++ c.unknownProviders script providers file := by
  cases providers with
  | none => exact (List.append_nil _).symm
  | some providers => exact congrArg (c.diagnostics ++ ·) (Ledger.reports_resolve ..)

theorem forest_begun (c : Compilation τ) (script : NodeId) (providers : Option (List Provider))
    (file : String) : (c.begun script providers file).workshop.forest = c.workshop.forest := by
  cases providers <;> rfl

theorem arena_begun (c : Compilation τ) (script : NodeId) (providers : Option (List Provider))
    (file : String) : (c.begun script providers file).workshop.arena = c.workshop.arena := by
  cases providers <;> rfl

theorem written_begun (c : Compilation τ) (script : NodeId) (providers : Option (List Provider))
    (file : String) : (c.begun script providers file).written = c.written := by
  cases providers <;> rfl

theorem andThen_of_ok {α β : Type} {first : Part τ α} {second : Part τ β} {a : α}
    {c' : Compilation τ} (h : first c = (.ok a, c')) : first.andThen second c = second c' := by
  rw [Part.andThen, h]

theorem attach_begun (h : c.workshop.forest.Grounded script) :
    attach script c = (.ok (), (attach script c).2) := by
  obtain ⟨t, ht⟩ := Attachment.exists_run h ⟨c.symbols, c.workshop.ledger, 0⟩
  rw [attach, ht]
  rfl

theorem resolve_begun (c : Compilation τ) (script : NodeId) (providers : Option (List Provider))
    (file : String) : resolve script providers file (attach script c).2
      = (.ok (), c.begun script providers file) := by
  cases providers <;> rfl

theorem Owns.congr {c' : Compilation τ} (howns : c.Owns script)
    (hforest : c'.workshop.forest = c.workshop.forest)
    (harena : c'.workshop.arena = c.workshop.arena) : c'.Owns script := by
  obtain ⟨grounded, nodup, owned⟩ := howns
  exact ⟨hforest ▸ grounded, hforest ▸ nodup, harena ▸ hforest ▸ owned⟩

/-- The compilation with what passes have made of it. -/
def afterPasses (c : Compilation τ) (s : PassState τ) : Compilation τ :=
  { c.withLedger s.ledger with
    symbols := s.symbols, diagnostics := s.diagnostics, client := s.client }

/-- **The passes are run behind the gate**, and the report of the last one is added. -/
theorem runPasses_eq {ran rest : List (Pass τ)} {lists : List (List Diagnostic)}
    {aborted : List Diagnostic} {t : PassState τ}
    (h : Pass.Gated ⟨c.workshop.forest, file⟩ script c.passState ran rest lists aborted t) :
    runPasses script (ran ++ rest) file c
      = (.ok (), c.afterPasses { t with diagnostics := t.diagnostics ++ aborted }) := by
  cases h with
  | barred broken =>
    have herrors : hasErrors c.diagnostics = true := broken
    rw [runPasses, if_pos herrors, List.append_nil]
    rfl
  | opened clean stretch =>
    have herrors : ¬ hasErrors c.diagnostics = true := Bool.eq_false_iff.mp clean
    have hrun := stretch.runAll_eq
    rw [passState] at hrun
    rw [runPasses, if_neg herrors, hrun]
    rfl

/-- **A tree is dumped and freed without a fault**, which changes nothing the passes made. -/
theorem exists_dump_free (howns : c.Owns script) {wanted : Bool}
    (hdump : wanted = false ∨
      ∀ n ∈ c.workshop.forest.preorder script, c.workshop.forest.shape n ≠ .stackValue) :
    ∃ final, (dump script wanted).andThen (free script) c
        = (.ok (c.workshop.forest.preorder script).length, final) ∧
      final.passState = c.passState := by
  obtain ⟨arena, -, hfree⟩ := Arena.exists_free howns.grounded howns.nodup howns.owned
  obtain ⟨written, hwritten⟩ := exists_dump howns.grounded hdump
  refine ⟨{ c with written, workshop := { c.workshop with arena } }, ?_, rfl⟩
  simp only [Part.andThen, hwritten, free, hfree]
  rfl

end Compilation

section Gating

variable {τ : Type} {c : Compilation τ} {script : NodeId} {file text : String} {options : Options}
  {grammar : Grammar τ} {passes : List (Pass τ)} {client : τ}

/-- **The passes run are a prefix of those given, each over the whole script**: none if the grammar
or the providers left an error, and otherwise up to the first one that answers a status other than
zero or after which there is an error.  What was reported stays, in order: by the grammar, for
unknown providers, by each pass run, and at last that the last pass aborted, if it did.  Nothing of
the outcome depends on the passes left out, and the whole tree is freed. -/
theorem compileSource_gated
    (hparse : Compilation.parse { client } grammar file text = (some script, c))
    (howns : c.Owns script)
    (hdump : options.dump = false ∨
      ∀ n ∈ c.workshop.forest.preorder script, c.workshop.forest.shape n ≠ .stackValue)
    (hquiet : ∀ pass ∈ passes, pass.Quiet ⟨c.workshop.forest, file⟩ script) :
    ∃ ran rest lists aborted t final, passes = ran ++ rest ∧
      Pass.Gated ⟨c.workshop.forest, file⟩ script (c.begun script options.providers file).passState
        ran rest lists aborted t ∧
      compileSource file text options grammar passes client
        = (.ok (c.workshop.forest.preorder script).length, final) ∧
      final.passState = { t with diagnostics := final.diagnostics } ∧
      final.diagnostics = c.diagnostics ++ c.unknownProviders script options.providers file
        ++ lists.flatten ++ aborted ∧
      (rest ≠ [] → ∀ others, compileSource file text options grammar (ran ++ others) client
        = (.ok (c.workshop.forest.preorder script).length, final)) := by
  have hforest := c.forest_begun script options.providers file
  have harena := c.arena_begun script options.providers file
  obtain ⟨ran, rest, lists, aborted, t, rfl, hgated⟩ := Pass.exists_gated howns.grounded hquiet
    (c.begun script options.providers file).passState
  have hdiagnostics : t.diagnostics ++ aborted = c.diagnostics
      ++ c.unknownProviders script options.providers file ++ lists.flatten ++ aborted := by
    rw [hgated.diagnostics_eq, Compilation.passState, Compilation.diagnostics_begun]
  obtain ⟨final, hfinal, hstate⟩ := Compilation.exists_dump_free
    (c := (c.begun script options.providers file).afterPasses
      { t with diagnostics := t.diagnostics ++ aborted })
    (howns.congr hforest harena) (hforest ▸ hdump)
  -- The answer is the same for all passes with the same stretch of them behind the gate.
  have hcompile : ∀ others, Pass.Gated ⟨c.workshop.forest, file⟩ script
      (c.begun script options.providers file).passState ran others lists aborted t →
      compileSource file text options grammar (ran ++ others) client
        = (.ok (c.workshop.forest.preorder script).length, final) := by
    intro others h
    rw [← hforest] at h ⊢
    rw [compileSource, hparse]
    change Compilation.Part.andThen _ _ c = _
    rw [Compilation.andThen_of_ok (Compilation.attach_begun howns.grounded),
      Compilation.andThen_of_ok (Compilation.resolve_begun ..),
      Compilation.andThen_of_ok (Compilation.runPasses_eq h)]
    exact hfinal
  refine ⟨ran, rest, lists, aborted, t, final, rfl, hgated, hcompile rest hgated, ?_, ?_,
    fun hrest others => hcompile others (hgated.replace hrest others)⟩
  · rw [show final.diagnostics = _ from congrArg PassState.diagnostics hstate]
    exact hstate
  · rw [← hdiagnostics]
    exact congrArg PassState.diagnostics hstate

/-- A grammar that warns of each file and builds a script of one probe. -/
def probeGrammar : Grammar Unit := fun file _ =>
  .report ⟨"W1", .warning, "Old syntax.", file⟩ do
    let probe ← .take (.construct (.probe "timer:tick" none none))
    .take (.construct (.script probe))

/-- A pass that notes each node, one that stops at the probe, and one that would report an error. -/
def probePasses : List (Pass Unit) :=
  [{ name := "note"
     pre := some fun scope _ s => (.ok 0, s.report ⟨"N1", .info, "Seen.", scope.file⟩) },
    { name := "stop", post := some fun _ n s => (.ok (if n = 0 then 3 else 0), s) },
    { name := "late"
      pre := some fun scope _ s => (.ok 0, s.report ⟨"E1", .error, "Late.", scope.file⟩) }]

/-- The tree is dumped, and the provider of the probe is given. -/
def probeOptions : Options := { dump := true, providers := some [⟨"timer", 0⟩] }

theorem quiet_probePasses (scope : Scope) (script : NodeId) :
    ∀ pass ∈ probePasses, pass.Quiet scope script := by
  intro pass hpass visitor hvisitor n _ s
  rw [probePasses, List.mem_cons, List.mem_cons, List.mem_singleton] at hpass
  obtain rfl | rfl | rfl := hpass
  · obtain rfl := List.mem_singleton.mp hvisitor
    exact ⟨0, _, rfl, List.prefix_append ..⟩
  · obtain rfl := List.mem_singleton.mp hvisitor
    exact ⟨_, s, rfl, List.prefix_refl _⟩
  · obtain rfl := List.mem_singleton.mp hvisitor
    exact ⟨0, _, rfl, List.prefix_append ..⟩

/-- The pass that stops is the last one run, and the report of that comes last. -/
theorem compileSource_gated_probe : ∃ ran rest final, probePasses = ran ++ rest ∧
    compileSource "f" "" probeOptions probeGrammar probePasses () = (.ok 2, final) ∧
    final.diagnostics
      = [⟨"W1", .warning, "Old syntax.", "f"⟩, ⟨"N1", .info, "Seen.", "f"⟩,
        ⟨"N1", .info, "Seen.", "f"⟩, Pass.aborted { name := "stop" } 3 "f" (τ := Unit)] ∧
    (rest ≠ [] → ∀ others,
      compileSource "f" "" probeOptions probeGrammar (ran ++ others) () = (.ok 2, final)) := by
  have howns : (Compilation.parse { client := () } probeGrammar "f" "").2.Owns 1 :=
    ⟨by decide, by decide, by decide⟩
  obtain ⟨ran, rest, lists, aborted, t, final, hsplit, -, hcompile, -, -, hothers⟩ :=
    compileSource_gated
      (show Compilation.parse { client := () } probeGrammar "f" "" = (some 1, _) from rfl) howns
      (show probeOptions.dump = false ∨ _ from .inr (by decide)) (quiet_probePasses _ 1)
  have hfinal : final = (compileSource "f" "" probeOptions probeGrammar probePasses ()).2 :=
    congrArg Prod.snd hcompile.symm
  exact ⟨ran, rest, final, hsplit, hcompile, hfinal ▸ rfl, hothers⟩

end Gating

end ProbeScript
