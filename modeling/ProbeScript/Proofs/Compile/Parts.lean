import ProbeScript.Compile.Source
import ProbeScript.Proofs.Arena.Freed
import ProbeScript.Proofs.Dump.Rendering

/-!
# Proofs/Compile/Parts — what the parts of a compilation do around the passes

On a tree the symbols are attached without a fault, and so is a tree without stack values dumped.
Finding providers reports the probes that name none of those given, in the order of the chain.
-/

namespace ProbeScript

open Forest

variable {f : Forest} {n script : NodeId} {τ : Type}

/-! ## Walks that cannot fail -/

theorem Attachment.exists_run (h : f.Grounded n) (s : Attachment) :
    ∃ t, Attachment.run f n s = (.ok (), t) := by
  have hevent : ∀ e ∈ f.euler n, ∀ s, ∃ status t,
      e.run (some (Attachment.visit f)) none s = (.ok status, t) := by
    intro e _ s
    cases e with
    | enter m => exact ⟨0, _, rfl⟩
    | leave m => exact ⟨0, s, rfl⟩
  obtain ⟨status, t, hrun⟩ := h.exists_answer _ _ hevent s
  exact ⟨t, by rw [run, hrun]; rfl⟩

/-- **A tree without stack values can be dumped.** -/
theorem Store.exists_dump (s : Store) (h : s.forest.Grounded n)
    (hstack : ∀ m ∈ s.forest.preorder n, s.forest.shape m ≠ .stackValue) :
    ∃ chunks, s.dump n = .ok chunks := by
  have hevent : ∀ e ∈ s.forest.euler n, ∀ d, ∃ status t,
      e.run (some (Drawing.enter s.forest s.ledger)) (some Drawing.leave) d = (.ok status, t) := by
    intro e he d
    cases e with
    | enter m =>
      have hm : m ∈ s.forest.preorder n := List.mem_filterMap.mpr ⟨_, he, rfl⟩
      obtain ⟨line, hline⟩ := s.ledger.exists_line (hstack m hm)
      exact ⟨0, _, by rw [Event.run, Visitor.run, Drawing.enter, hline]⟩
    | leave m => exact ⟨0, _, rfl⟩
  obtain ⟨status, t, hrun⟩ := h.exists_answer _ _ hevent {}
  exact ⟨[t.text], by rw [dump, diagram, hrun]; rfl⟩

/-- A part that only dumps goes through on any tree if nothing is dumped. -/
theorem Compilation.exists_dump {c : Compilation τ} (h : c.workshop.forest.Grounded script)
    {wanted : Bool} (hdump : wanted = false ∨
      ∀ n ∈ c.workshop.forest.preorder script, c.workshop.forest.shape n ≠ .stackValue) :
    ∃ written, dump script wanted c = (.ok (), { c with written }) := by
  cases wanted with
  | false => exact ⟨c.written, rfl⟩
  | true =>
    obtain ⟨chunks, hchunks⟩ :=
      c.workshop.toStore.exists_dump h (hdump.resolve_left Bool.noConfusion)
    exact ⟨c.written ++ chunks, by simp only [dump, hchunks, if_true]⟩

/-! ## Unknown providers -/

namespace Resolution

variable {providers : List Provider} {file : String}

/-- The report of a node, if it is a probe that names none of the providers. -/
def unknown? (f : Forest) (providers : List Provider) (file : String) (n : NodeId) :
    Option Diagnostic :=
  match f.shape n with
  | .probe spec _ _ =>
    if ∃ provider ∈ providers, provider.name = Provider.nameOf spec then none
    else some (unknown spec file)
  | _ => none

theorem find?_eq_none_iff {name : String} :
    Provider.find? providers name = none ↔ ¬ ∃ provider ∈ providers, provider.name = name := by
  simp [Provider.find?]

theorem exists_named {name : String} {p : Provider} (h : Provider.find? providers name = some p) :
    ∃ provider ∈ providers, provider.name = name := by
  by_contra hnone
  rw [find?_eq_none_iff.mpr hnone] at h
  cases h

theorem reports_step (s : Resolution) :
    (step f providers file s n).reports = s.reports ++ (unknown? f providers file n).toList := by
  rw [step, unknown?]
  cases f.shape n with
  | probe spec predicate statements =>
    cases hfind : Provider.find? providers (Provider.nameOf spec) with
    | none => simp only [hfind, if_neg (find?_eq_none_iff.mp hfind), Option.toList_some]
    | some provider =>
      simp only [hfind, if_pos (exists_named hfind), Option.toList_none, List.append_nil]
  | _ => exact (List.append_nil _).symm

theorem reports_foldl (ns : List NodeId) (s : Resolution) :
    (ns.foldl (step f providers file) s).reports
      = s.reports ++ ns.filterMap (unknown? f providers file) := by
  induction ns generalizing s with
  | nil => exact (List.append_nil _).symm
  | cons n ns ih =>
    rw [List.foldl_cons, ih, reports_step, List.append_assoc, List.filterMap_cons]
    cases unknown? f providers file n <;> rfl

end Resolution

/-- **Finding providers reports the probes that name none of those given**, in the order of the
chain. -/
theorem Ledger.reports_resolve (ledger : Ledger) (providers : List Provider) (file : String) :
    (ledger.resolve f script providers file).reports
      = (f.probesOf script).filterMap (Resolution.unknown? f providers file) := by
  rw [resolve, Resolution.reports_foldl]
  rfl

end ProbeScript
