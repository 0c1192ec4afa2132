import ProbeScript.Ledger
import ProbeScript.Symbols.Basic

/-!
# Proofs/Ledger/Records — what each change does to the records

A ledger is read through `Ledger.record` and `Ledger.recordOf?`.  Making a record and attaching one
touch one record or one attachment, a change in place touches one record and no attachment, and
asking a table for the record of a name leaves those of all other names alone.
-/

namespace ProbeScript

namespace Ledger

variable (l : Ledger)

/-! ## Making and attaching -/

theorem record_of_size_le {l : Ledger} {r : RecordId} (h : l.records.size ≤ r) :
    l.record r = {} := by
  rw [record, Array.getD_eq_getD_getElem?, Array.getElem?_eq_none h, Option.getD_none]

@[simp] theorem size_create (record : Record) :
    (l.create record).2.records.size = l.records.size + 1 := by
  simp [create]

theorem record_create (record : Record) (r : RecordId) :
    (l.create record).2.record r = if r = l.records.size then record else l.record r := by
  simp only [create, Ledger.record, Array.getD_eq_getD_getElem?, Array.getElem?_push]
  split <;> rfl

@[simp] theorem recordOf?_create (record : Record) (n : NodeId) :
    (l.create record).2.recordOf? n = l.recordOf? n := rfl

@[simp] theorem size_attach (n : NodeId) (r : RecordId) :
    (l.attach n r).records.size = l.records.size := rfl

@[simp] theorem record_attach (n : NodeId) (r q : RecordId) :
    (l.attach n r).record q = l.record q := rfl

theorem recordOf?_attach (n : NodeId) (r : RecordId) (m : NodeId) :
    (l.attach n r).recordOf? m = if m = n then some r else l.recordOf? m := by
  by_cases h : m = n
  · subst h
    simp [recordOf?, attach]
  · rw [if_neg h, recordOf?, attach, List.find?_cons_of_neg (by simpa using Ne.symm h), recordOf?]

/-! ## Changing in place -/

@[simp] theorem size_modify (r : RecordId) (change : Record → Record) :
    (l.modify r change).records.size = l.records.size := by
  simp [modify]

@[simp] theorem recordOf?_modify (r : RecordId) (change : Record → Record) (n : NodeId) :
    (l.modify r change).recordOf? n = l.recordOf? n := rfl

theorem record_modify (r : RecordId) (change : Record → Record) (q : RecordId) :
    (l.modify r change).record q
      = if r = q ∧ q < l.records.size then change (l.record q) else l.record q := by
  simp only [modify, record, Array.getD_eq_getD_getElem?, Array.getElem?_modify]
  by_cases h : q < l.records.size
  · by_cases hr : r = q <;> simp [h, hr]
  · simp [h]

/-- A change at a node is one of its record, and there is none where no record is attached. -/
theorem modifyAt_of_some {n : NodeId} {r : RecordId} (h : l.recordOf? n = some r)
    (change : Record → Record) : l.modifyAt n change = l.modify r change := by
  rw [modifyAt, h]

theorem modifyAt_of_none {n : NodeId} (h : l.recordOf? n = none) (change : Record → Record) :
    l.modifyAt n change = l := by
  rw [modifyAt, h]

/-- A note is changed at a node as any part of its record is. -/
theorem annotateAt_eq (n : NodeId) (change : Note → Note) :
    l.annotateAt n change
      = l.modifyAt n fun record => { record with note := change record.note } := rfl

/-- The ledger after changes in place, each of one record. -/
def rewrite (l : Ledger) (writes : List (RecordId × (Record → Record))) : Ledger :=
  writes.foldl (fun l write => l.modify write.1 write.2) l

@[simp] theorem recordOf?_rewrite (writes : List (RecordId × (Record → Record))) (n : NodeId) :
    (l.rewrite writes).recordOf? n = l.recordOf? n := by
  induction writes generalizing l with
  | nil => rfl
  | cons write writes ih => exact (ih _).trans (l.recordOf?_modify ..)

@[simp] theorem size_rewrite (writes : List (RecordId × (Record → Record))) :
    (l.rewrite writes).records.size = l.records.size := by
  induction writes generalizing l with
  | nil => rfl
  | cons write writes ih => exact (ih _).trans (l.size_modify ..)

/-- The storage of a node is that of the record attached to it. -/
theorem frame_congr {l l' : Ledger} {p : NodeId} (hrecordOf : l'.recordOf? p = l.recordOf? p)
    (hframe : ∀ r, l.recordOf? p = some r → (l'.record r).frame = (l.record r).frame) :
    l'.frame p = l.frame p := by
  rw [frame, frame, hrecordOf]
  cases hr : l.recordOf? p with
  | none => rfl
  | some r => rw [Option.bind_some, Option.bind_some, hframe r hr]

/-- The storage of a node after a change in place. -/
theorem frame_modify (r : RecordId) (change : Record → Record) (p : NodeId) :
    (l.modify r change).frame p
      = if l.recordOf? p = some r ∧ r < l.records.size then (change (l.record r)).frame.getD {}
        else l.frame p := by
  rw [frame, frame, recordOf?_modify]
  cases hp : l.recordOf? p with
  | none => simp
  | some q =>
    rw [Option.bind_some, Option.bind_some, record_modify]
    by_cases hq : r = q
    · subst hq
      by_cases hr : r < l.records.size <;> simp [hr]
    · simp [hq, Ne.symm hq]

theorem frame_annotate (r : RecordId) (change : Note → Note) (p : NodeId) :
    (l.annotate r change).frame p = l.frame p :=
  frame_congr rfl fun q _ => by
    rw [annotate, record_modify]
    split <;> rfl

theorem frame_annotateAt (n : NodeId) (change : Note → Note) (p : NodeId) :
    (l.annotateAt n change).frame p = l.frame p := by
  rw [annotateAt]
  split
  · exact l.frame_annotate ..
  · rfl

end Ledger

/-! ## The records of names -/

namespace SymbolTable

variable (t : SymbolTable) (l : Ledger)

/-- A name met before keeps its record. -/
theorem recordFor_of_some {name : String} {r : RecordId} (h : t.get? name = some r) :
    t.recordFor l name = (r, t, l) := by
  rw [recordFor, h]

/-- A new name gets a new record. -/
theorem recordFor_of_none {name : String} (h : t.get? name = none) :
    t.recordFor l name
      = (l.records.size, ⟨t.entries ++ [(name, l.records.size)]⟩, (l.create {}).2) := by
  rw [recordFor, h]
  rfl

theorem get?_append (name : String) (r : RecordId) (other : String) :
    (⟨t.entries ++ [(name, r)]⟩ : SymbolTable).get? other
      = (t.get? other).or (if other = name then some r else none) := by
  rw [get?, List.find?_append, Option.map_or, get?]
  by_cases h : name = other
  · rw [List.find?_cons_of_pos (by simpa using h), if_pos h.symm]
    rfl
  · rw [List.find?_cons_of_neg (by simpa using h), if_neg (Ne.symm h)]
    rfl

/-- What comes of asking for the record of a name: that name has the answer for its record, and the
others have theirs. -/
theorem get?_recordFor (name other : String) :
    (t.recordFor l name).2.1.get? other
      = if other = name then some (t.recordFor l name).1 else t.get? other := by
  cases h : t.get? name with
  | some r =>
    rw [t.recordFor_of_some l h]
    split
    · rename_i heq
      rw [heq, h]
    · rfl
  | none =>
    rw [t.recordFor_of_none l h, get?_append]
    split
    · rename_i heq
      rw [heq, h]
      rfl
    · exact Option.or_none

theorem get?_recordFor_of_some (name : String) {other : String} {r : RecordId}
    (h : t.get? other = some r) : (t.recordFor l name).2.1.get? other = some r := by
  rw [get?_recordFor]
  split
  · rename_i hname
    rw [t.recordFor_of_some l (hname ▸ h)]
  · exact h

/-- A record of the table is the answer, or it was there before. -/
theorem get?_cases_of_recordFor {name other : String} {r : RecordId}
    (h : (t.recordFor l name).2.1.get? other = some r) :
    other = name ∧ r = (t.recordFor l name).1 ∨ t.get? other = some r := by
  rw [get?_recordFor] at h
  split at h
  · exact .inl ⟨‹_›, (Option.some.inj h).symm⟩
  · exact .inr h

/-- The note of a name, undecided where the name was not met. -/
def note (t : SymbolTable) (l : Ledger) (name : String) : Note :=
  ((t.get? name).map fun r => (l.record r).note).getD .unresolved

theorem note_of_some {name : String} {r : RecordId} (h : t.get? name = some r) :
    t.note l name = (l.record r).note := by
  rw [note, h]
  rfl

theorem note_of_none {name : String} (h : t.get? name = none) : t.note l name = .unresolved := by
  rw [note, h]
  rfl

theorem note_congr {t t' : SymbolTable} {l l' : Ledger} {name : String}
    (hget : t'.get? name = t.get? name)
    (hnote : ∀ r, t.get? name = some r → (l'.record r).note = (l.record r).note) :
    t'.note l' name = t.note l name := by
  rw [note, note, hget]
  cases hr : t.get? name with
  | none => rfl
  | some r => rw [Option.map_some, Option.map_some, hnote r hr]

/-- The note of a name after a change in place. -/
theorem note_modify (r : RecordId) (change : Record → Record) (name : String) :
    t.note (l.modify r change) name
      = if t.get? name = some r ∧ r < l.records.size then (change (l.record r)).note
        else t.note l name := by
  cases hname : t.get? name with
  | none => simp [note, hname]
  | some q =>
    rw [note_of_some _ _ hname, note_of_some _ _ hname, Ledger.record_modify]
    by_cases hq : r = q
    · subst hq
      by_cases hr : r < l.records.size <;> simp [hr]
    · simp [hq, Ne.symm hq]

/-- A note changed in place is that of the name whose record it is in, if there is one. -/
theorem note_annotate {r : RecordId} (hr : r < l.records.size) (change : Note → Note)
    (name : String) :
    t.note (l.annotate r change) name
      = (if t.get? name = some r then change else id) (t.note l name) := by
  rw [Ledger.annotate, note_modify]
  by_cases hname : t.get? name = some r
  · rw [if_pos ⟨hname, hr⟩, if_pos hname, t.note_of_some l hname]
  · rw [if_neg fun hc => hname hc.1, if_neg hname]
    rfl

end SymbolTable

end ProbeScript
