import ProbeScript.Diagnostic.Shelf
import ProbeScript.Proofs.Text.Collated

/-!
# Proofs/Diagnostic/Reported — a report is determined by what is reported

The place of a diagnostic in a report is made of the places of its texts and the rank of its
severity, and the comparison of diagnostics is the comparison of places (`compare_compares`).  Two
printable diagnostics at one place are the same, so a list of them can be put in order in one way
only (`sort_eq_of_perm`): how the diagnostics came in leaves no trace in the report.

A report of a list on a shelf sorts a copy (`Shelf.report_fst`), so every list that was there stays
as it was.
-/

namespace ProbeScript

namespace Diagnostic

/-! ## Places -/

/-- The place of a diagnostic in a report: file, severity, identifier, text. -/
def place (d : Diagnostic) : Text.Place ×ₗ Nat ×ₗ Text.Place ×ₗ Text.Place :=
  toLex (Text.place d.file, toLex (d.severity.rank, toLex (Text.place d.id, Text.place d.message)))

/-- **Diagnostics are compared by their places.** -/
theorem compare_compares (a b : Diagnostic) : (a.compare b).Compares a.place b.place :=
  Text.then_compares (Text.collate_compares a.file b.file) <|
  Text.then_compares (Text.compareWeights_compares a.severity.rank b.severity.rank) <|
  Text.then_compares (Text.collate_compares a.id b.id) (Text.collate_compares a.message b.message)

theorem isLE_compare {a b : Diagnostic} : (a.compare b).isLE = true ↔ a.place ≤ b.place :=
  Ordering.ne_gt_iff_isLE.symm.trans (compare_compares a b).ne_gt

/-- Whether the texts of a diagnostic have printable ASCII characters only. -/
structure IsPrintable (d : Diagnostic) : Prop where
  file : ∀ c ∈ d.file.toList, Text.IsPrintable c
  id : ∀ c ∈ d.id.toList, Text.IsPrintable c
  message : ∀ c ∈ d.message.toList, Text.IsPrintable c

theorem isPrintable_iff {d : Diagnostic} : d.IsPrintable ↔
    (d.file.toList ++ d.id.toList ++ d.message.toList).all (Text.IsPrintable ·) = true := by
  simp only [List.all_eq_true, decide_eq_true_eq, List.forall_mem_append]
  exact ⟨fun h => ⟨⟨h.file, h.id⟩, h.message⟩, fun h => ⟨h.1.1, h.1.2, h.2⟩⟩

instance (d : Diagnostic) : Decidable d.IsPrintable := decidable_of_iff' _ isPrintable_iff

theorem place_injective {a b : Diagnostic} (ha : a.IsPrintable) (hb : b.IsPrintable)
    (h : a.place = b.place) : a = b := by
  obtain ⟨hfile, h⟩ := Prod.mk.inj h
  obtain ⟨hrank, h⟩ := Prod.mk.inj h
  obtain ⟨hid, hmessage⟩ := Prod.mk.inj h
  have hseverity : a.severity = b.severity := by
    cases ha : a.severity <;> cases hb : b.severity <;> simp_all [Severity.rank]
  cases a
  cases b
  simp only [mk.injEq]
  exact ⟨Text.place_injective ha.id hb.id hid, hseverity,
    Text.place_injective ha.message hb.message hmessage,
    Text.place_injective ha.file hb.file hfile⟩

/-! ## Sorting -/

theorem sort_perm (l : List Diagnostic) : (sort l).Perm l := List.mergeSort_perm l _

theorem sort_pairwise (l : List Diagnostic) : (sort l).Pairwise fun a b => a.place ≤ b.place := by
  have sorted : (sort l).Pairwise fun a b => (a.compare b).isLE = true := by
    refine List.pairwise_mergeSort (fun a b c hab hbc => ?_) (fun a b => ?_) l
    · exact isLE_compare.mpr ((isLE_compare.mp hab).trans (isLE_compare.mp hbc))
    · rw [Bool.or_eq_true]
      exact (le_total a.place b.place).imp isLE_compare.mpr isLE_compare.mpr
  exact sorted.imp isLE_compare.mp

theorem sort_eq_self {l : List Diagnostic}
    (h : l.Pairwise fun a b => (a.compare b).isLE = true) : sort l = l :=
  List.mergeSort_of_pairwise h

/-- **Printable diagnostics come out in the same order, however they came in.** -/
theorem sort_eq_of_perm {l l' : List Diagnostic} (hl : ∀ d ∈ l, d.IsPrintable) (h : l'.Perm l) :
    sort l' = sort l := by
  refine List.Perm.eq_of_pairwise (fun a b ha hb hab hba => ?_) (sort_pairwise l')
    (sort_pairwise l) ((sort_perm l').trans (h.trans (sort_perm l).symm))
  exact place_injective (hl a (h.mem_iff.mp ((sort_perm l').mem_iff.mp ha)))
    (hl b ((sort_perm l).mem_iff.mp hb)) (le_antisymm hab hba)

/-! ## Lines -/

/-- A printable diagnostic is shown on one line. -/
theorem newline_notMem_format {d : Diagnostic} (hd : d.IsPrintable) : '\n' ∉ d.format.toList := by
  have out {s : String} (hs : ∀ c ∈ s.toList, Text.IsPrintable c) : '\n' ∉ s.toList := fun h =>
    absurd (hs _ h) (by decide)
  have hname : '\n' ∉ d.severity.name.toList := by cases d.severity <;> decide
  simp [format, out hd.file, out hd.id, out hd.message, hname]

theorem hasErrors_perm {l l' : List Diagnostic} (h : l'.Perm l) : hasErrors l' = hasErrors l :=
  Bool.eq_iff_iff.mpr (by simp [hasErrors, h.mem_iff])

theorem hasErrors_iff {l : List Diagnostic} :
    hasErrors l = true ↔ ∃ d ∈ l, d.severity = .error := by
  simp [hasErrors, isError]

end Diagnostic

/-- To put diagnostics in order leaves no error out. -/
theorem Report.failed_ofDiagnostics (l : List Diagnostic) :
    (Report.ofDiagnostics l).failed = hasErrors l :=
  Diagnostic.hasErrors_perm (Diagnostic.sort_perm l)

/-! ## Reports in place -/

namespace Shelf

theorem list_sort_copy_self (s : Shelf) (i : Nat) :
    ((s.copy i).sort s.lists.size).list s.lists.size = Diagnostic.sort (s.list i) := by
  simp [copy, sort, list, Array.getD_eq_getD_getElem?, Array.getElem_modify]

theorem list_sort_copy_of_lt (s : Shelf) (i : Nat) {j : Nat} (hj : j < s.lists.size) :
    ((s.copy i).sort s.lists.size).list j = s.list j := by
  simp [copy, sort, list, Array.getD_eq_getD_getElem?, Array.getElem?_modify, Array.getElem?_push,
    hj.ne, hj.ne']

/-- A report of a list of the shelf is the report of what is in it. -/
theorem report_fst (s : Shelf) (i : Nat) :
    (s.report i).1 = Report.ofDiagnostics (s.list i) := by
  rw [report, list_sort_copy_self, Report.ofDiagnostics]

/-- **A report is in order, complete, the same for every arrangement, and disturbs no list.** -/
theorem report_arranged {s : Shelf} {i : Nat} (printable : ∀ d ∈ s.list i, d.IsPrintable) :
    (s.report i).1 = Report.ofDiagnostics (s.list i) ∧
    (∃ sorted : List Diagnostic, sorted.Perm (s.list i) ∧
      (sorted.Pairwise fun a b => a.place ≤ b.place) ∧
      (s.report i).1.chunks = sorted.map fun d => d.format ++ "\n") ∧
    (∀ d ∈ s.list i, '\n' ∉ d.format.toList) ∧
    (∀ (t : Shelf) (j : Nat), (t.list j).Perm (s.list i) →
      (t.report j).1.chunks = (s.report i).1.chunks) ∧
    (∀ j < s.lists.size, (s.report i).2.list j = s.list j) ∧
    ((s.report i).1.failed = true ↔ ∃ d ∈ s.list i, d.severity = .error) := by
  refine ⟨report_fst s i, ⟨Diagnostic.sort (s.list i), Diagnostic.sort_perm _,
    Diagnostic.sort_pairwise _, ?_⟩, fun d hd => Diagnostic.newline_notMem_format (printable d hd),
    fun t j h => ?_, fun j hj => list_sort_copy_of_lt s i hj, ?_⟩
  · rw [report_fst]
    rfl
  · rw [report_fst, report_fst]
    exact congrArg (List.map _) (Diagnostic.sort_eq_of_perm printable h)
  · rw [report_fst, Report.failed_ofDiagnostics]
    exact Diagnostic.hasErrors_iff

/-- Three diagnostics about files whose names differ in case and length only. -/
def mixedCase : Shelf :=
  ⟨#[[⟨"E2", .error, "late", "Ab"⟩, ⟨"E1", .info, "note", "aB"⟩, ⟨"E1", .warning, "", "A"⟩]]⟩

/-- The same three, put in order by hand. -/
def inOrder : Shelf :=
  ⟨#[[⟨"E1", .warning, "", "A"⟩, ⟨"E1", .info, "note", "aB"⟩, ⟨"E2", .error, "late", "Ab"⟩]]⟩

theorem report_arranged_mixedCase :
    (∀ d ∈ mixedCase.list 0, d.IsPrintable) ∧
    (mixedCase.report 0).1.chunks =
      ["A: warning: [E1] \n", "aB: info: [E1] note\n", "Ab: error: [E2] late\n"] := by
  have printable : ∀ d ∈ mixedCase.list 0, d.IsPrintable := by decide
  have rearranged : (inOrder.list 0).Perm (mixedCase.list 0) :=
    List.reverse_perm (mixedCase.list 0)
  refine ⟨printable, ?_⟩
  rw [← (report_arranged printable).2.2.2.1 inOrder 0 rearranged, report_fst,
    Report.ofDiagnostics, Diagnostic.sort_eq_self (by decide +kernel)]
  decide

end Shelf

end ProbeScript
