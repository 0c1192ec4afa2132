import ProbeScript.Compile.Source
import ProbeScript.Diagnostic.Report

/-!
# Proofs/Grammar/Unparsed — what is reported where no script comes of a text

A grammar only ever adds to the diagnostics (`Recipe.exists_reports`).  If it delivers no script,
one more report follows: of what it raised, or that it built nothing.  The latter is left out when
the grammar reported anything, be it a warning, so a text that was not parsed may end without an
error.
-/

namespace ProbeScript

variable {τ : Type}

theorem hasErrors_append (ds es : List Diagnostic) :
    hasErrors (ds ++ es) = (hasErrors ds || hasErrors es) :=
  List.any_append

namespace Recipe

/-- **Following a recipe keeps the diagnostics there are**, and adds to them at the end. -/
theorem exists_reports {α : Type} (r : Recipe τ α) (s : Site τ) :
    ∃ reports, (r.follow s).2.diagnostics = s.diagnostics ++ reports := by
  induction r generalizing s with
  | done answer => exact ⟨[], (List.append_nil _).symm⟩
  | raise what => exact ⟨[], (List.append_nil _).symm⟩
  | report d rest ih =>
    obtain ⟨reports, hreports⟩ := ih (s.report d)
    exact ⟨d :: reports, by rw [follow, hreports, Site.report, List.append_assoc]; rfl⟩
  | step taken rest ih => exact ih _ _
  | client change rest ih => exact ih _ _

end Recipe

namespace Grammar

/-- What is reported at the end where a grammar delivers no script, after what it reported. -/
def lastReport (outcome : Except Raised (Option NodeId)) (reports : List Diagnostic)
    (file : String) : List Diagnostic :=
  match outcome with
  | .ok (some _) => []
  | .ok none => if reports = [] then [.noScript file] else []
  | .error what => [what.report file]

variable {grammar : Grammar τ} {file text : String} {s t : Site τ}
  {outcome : Except Raised (Option NodeId)}

/-- **A parse without a script keeps all reports**, those from before and the grammar's own, and
adds the last one. -/
theorem exists_parse (h : (grammar file text).follow s = (outcome, t))
    (hnone : ∀ script, outcome ≠ .ok (some script)) :
    ∃ reports, t.diagnostics = s.diagnostics ++ reports ∧
      grammar.parse file text s
        = (none, { t with diagnostics := t.diagnostics ++ lastReport outcome reports file }) := by
  obtain ⟨reports, hreports⟩ := (grammar file text).exists_reports s
  rw [h] at hreports
  refine ⟨reports, hreports, ?_⟩
  rw [parse, h]
  match outcome with
  | .ok (some script) => exact absurd rfl (hnone script)
  | .error what => rfl
  | .ok none =>
    have hlength : t.diagnostics.length = s.diagnostics.length ↔ reports = [] := by
      rw [hreports, List.length_append, Nat.add_eq_left, List.length_eq_zero_iff]
    simp only [lastReport, hlength]
    split
    · rfl
    · rw [List.append_nil]

/-- The last report is an error, but there may be none. -/
theorem hasErrors_lastReport (hnone : ∀ script, outcome ≠ .ok (some script))
    (reports : List Diagnostic) :
    hasErrors (lastReport outcome reports file) = true
      ↔ (∃ what, outcome = .error what) ∨ reports = [] := by
  match outcome with
  | .ok (some script) => exact absurd rfl (hnone script)
  | .error what => exact iff_of_true rfl (.inl ⟨what, rfl⟩)
  | .ok none =>
    rw [lastReport]
    split
    case isTrue hreports => exact iff_of_true rfl (.inr hreports)
    case isFalse hreports => exact iff_of_false Bool.false_ne_true (by simpa using hreports)

end Grammar

/-- **A compilation without a script ends with an error just when the grammar raised something,
reported nothing, or reported an error.**  It has all of the grammar's reports and the last one, and
releases nothing. -/
theorem compileSource_unparsed {grammar : Grammar τ} {file text : String} {client : τ}
    {outcome : Except Raised (Option NodeId)} {t : Site τ}
    (h : (grammar file text).follow ⟨{}, [], client⟩ = (outcome, t))
    (hnone : ∀ script, outcome ≠ .ok (some script)) (options : Options) (passes : List (Pass τ)) :
    ∃ final, compileSource file text options grammar passes client = (.ok 0, final) ∧
      final.diagnostics = t.diagnostics ++ Grammar.lastReport outcome t.diagnostics file ∧
      (hasErrors final.diagnostics = true ↔
        (∃ what, outcome = .error what) ∨ t.diagnostics = [] ∨ hasErrors t.diagnostics = true) := by
  obtain ⟨reports, hreports, hparse⟩ := Grammar.exists_parse h hnone
  obtain rfl : t.diagnostics = reports := hreports
  refine ⟨_, by rw [compileSource, Compilation.parse, hparse], rfl, ?_⟩
  rw [hasErrors_append, Bool.or_eq_true, Grammar.hasErrors_lastReport hnone, or_comm, or_assoc]

/-- A grammar that warns of each file, builds one node, and gives up. -/
def warnThenRaise : Grammar Unit := fun file _ =>
  .report ⟨"W1", .warning, "Old syntax.", file⟩ do
    let _ ← .take (.construct .breakLoop)
    .raise (.string "stuck")

/-- What was raised is reported after the warning. -/
theorem compileSource_unparsed_raised :
    (∀ script, .error (.string "stuck") ≠ (.ok (some script) : Except Raised (Option NodeId))) ∧
      ∃ final, compileSource "f" "" {} warnThenRaise [] () = (.ok 0, final) ∧
        final.diagnostics = [⟨"W1", .warning, "Old syntax.", "f"⟩,
          ⟨"PRB002", .error, "Internal error during parse: stuck", "f"⟩] ∧
        hasErrors final.diagnostics = true := by
  have hnone (script : NodeId) :
      .error (.string "stuck") ≠ (.ok (some script) : Except Raised (Option NodeId)) := nofun
  obtain ⟨final, hcompile, hdiagnostics, herrors⟩ := compileSource_unparsed
    (show (warnThenRaise "f" "").follow ⟨{}, [], ()⟩ = (.error (.string "stuck"), _) from rfl)
    hnone {} []
  exact ⟨hnone, final, hcompile, hdiagnostics.trans (by decide), herrors.mpr (.inl ⟨_, rfl⟩)⟩

/-- A grammar that warns of each file and builds nothing. -/
def warnOnly : Grammar Unit := fun file _ =>
  .report ⟨"W1", .warning, "Old syntax.", file⟩ (.done none)

/-- Not every compilation without a script ends with an error: a warning keeps the last report from
being made, and nothing else tells of the failure. -/
theorem compileSource_unparsed_silent :
    ¬ ∀ (grammar : Grammar Unit) (file text : String) (options : Options)
        (passes : List (Pass Unit)),
      (Compilation.parse { client := () } grammar file text).1 = none →
        hasErrors (compileSource file text options grammar passes ()).2.diagnostics = true := by
  intro h
  exact absurd (h warnOnly "f.ply" "" {} [] rfl) (by decide)

end ProbeScript
