import ProbeScript.Proofs.Session.Basic

/-!
# Proofs/Session/Sharing — what is written through one use of a symbol is read through all

The record of a name is attached to maps and variables of that name only, and all of them have it.
So a note written through one of them, or by way of the table, is the note of all, and what is
written elsewhere is none of their business: the note of a name is what the actions on that name
make of an undecided one (`note_run`).
-/

namespace ProbeScript.Session

variable {s : Session} {name : String}

/-- What an action makes of the note of a name.  It is changed by way of the table, or through a
node that names the symbol and has its record. -/
def changeOf (s : Session) (name : String) : Action → Note → Note
  | .note other change => if other = name then change else id
  | .write n change =>
    if s.forest.symbol? n = some name ∧ (s.ledger.recordOf? n).isSome then change else id
  | _ => id

/-- What actions make of the note of a name, one after the other. -/
def latest (name : String) : List Action → Session → Note → Note
  | [], _, note => note
  | a :: rest, s, note => latest name rest (s.act a) (s.changeOf name a note)

/-- **An action changes the note of a name as `changeOf` says.**  A name not met yet reads as
undecided. -/
theorem note_act (h : s.Sound) (name : String) (a : Action) :
    (s.act a).symbols.note (s.act a).ledger name
      = s.changeOf name a (s.symbols.note s.ledger name) := by
  cases a with
  | note other change =>
    have haliased := h.aliased.recordFor other
    have hother := s.symbols.get?_recordFor s.ledger other other
    rw [if_pos rfl] at hother
    refine ((s.symbols.recordFor s.ledger other).2.1.note_annotate _ (haliased.entry_lt hother)
      change name).trans ?_
    rw [(h.aliased.kept_recordFor other).note_eq name, changeOf]
    -- The record changed is that of the name itself or of no name at all.
    by_cases hname : other = name
    · rw [if_pos hname, if_pos (hname ▸ hother)]
    · rw [if_neg hname, if_neg fun hr => hname (haliased.entry_inj hother hr)]
  | write n change =>
    rw [act, changeOf, withLedger, Ledger.annotateAt]
    cases hr : s.ledger.recordOf? n with
    | none => simp
    | some r =>
      refine (s.symbols.note_annotate s.ledger (h.aliased.record_lt hr) change name).trans ?_
      have hiff : s.symbols.get? name = some r ↔ s.forest.symbol? n = some name := by
        refine ⟨fun hname => ?_, fun hn => h.aliased.shared hn hr⟩
        cases hn : s.forest.symbol? n with
        | none => exact absurd hname ((h.aliased.own hn hr).1 name)
        | some other => rw [h.aliased.entry_inj (h.aliased.shared hn hr) hname]
      simp [hiff]
  | request p r =>
    rw [act]
    split
    · exact (h.request ‹_› r).2.1 name
    · rfl
  | step | turn | attach | replace | resolve | free =>
    exact (h.calm_act (by exact trivial)).kept.note_eq name

/-- **The note of a name is what was made of it.** -/
theorem note_run (h : s.Sound) (name : String) (actions : List Action) :
    (run actions s).symbols.note (run actions s).ledger name
      = latest name actions s (s.symbols.note s.ledger name) := by
  induction actions generalizing s with
  | nil => rfl
  | cons a actions ih => rw [run, latest, ih (h.act a), note_act h]

/-- **A name keeps its record**, whatever is done. -/
theorem get?_act (h : s.Sound) {r : RecordId} (hr : s.symbols.get? name = some r) (a : Action) :
    (s.act a).symbols.get? name = some r := by
  cases a with
  | note other change => exact s.symbols.get?_recordFor_of_some s.ledger other hr
  | write n change => exact hr
  | request p request =>
    rw [act]
    split <;> exact hr
  | step | turn | attach | replace | resolve | free =>
    exact (h.calm_act (by exact trivial)).kept.get?_eq hr

theorem get?_run (h : s.Sound) {r : RecordId} (hr : s.symbols.get? name = some r)
    (actions : List Action) : (run actions s).symbols.get? name = some r := by
  induction actions generalizing s with
  | nil => exact hr
  | cons a actions ih => exact ih (h.act a) (get?_act h hr a)

/-- **Records are shared by name.**  After any actions, a name met keeps its record whatever is done
after that; attached maps and variables have one record if and only if they have one name, which is
that of the name in the table, and no other node has a record of the table.  What is read through
any of them, and by way of the table, is what the actions on that name have made of an undecided
note.  Freeing trees changes neither the table nor any record. -/
theorem records_shared (actions : List Action) :
    let s := run actions {}
    (∀ name r, s.symbols.get? name = some r → ∀ more, (run more s).symbols.get? name = some r) ∧
    (∀ n name r, s.forest.symbol? n = some name → s.ledger.recordOf? n = some r →
      s.symbols.get? name = some r) ∧
    (∀ n m a b r q, s.forest.symbol? n = some a → s.forest.symbol? m = some b →
      s.ledger.recordOf? n = some r → s.ledger.recordOf? m = some q → (r = q ↔ a = b)) ∧
    (∀ n r, s.forest.symbol? n = none → s.ledger.recordOf? n = some r →
      ∀ name, s.symbols.get? name ≠ some r) ∧
    (∀ n name note, s.forest.symbol? n = some name → s.ledger.note? n = some note →
      note = latest name actions {} .unresolved) ∧
    (∀ name r, s.symbols.get? name = some r →
      (s.ledger.record r).note = latest name actions {} .unresolved) ∧
    ∀ root, (s.act (.free root)).symbols = s.symbols ∧ (s.act (.free root)).ledger = s.ledger := by
  intro s
  have h : s.Sound := sound_empty.run actions
  have hnote : ∀ name r, s.symbols.get? name = some r →
      (s.ledger.record r).note = latest name actions {} .unresolved := fun name r hr => by
    rw [← s.symbols.note_of_some s.ledger hr]
    exact note_run sound_empty name actions
  refine ⟨fun name r hr => get?_run h hr, fun n name r => h.aliased.shared, ?_, fun n r hn hr =>
    (h.aliased.own hn hr).1, ?_, hnote, fun root => ⟨rfl, rfl⟩⟩
  · intro n m a b r q hn hm hr hq
    have ha := h.aliased.shared hn hr
    have hb := h.aliased.shared hm hq
    constructor
    · rintro rfl
      exact h.aliased.entry_inj ha hb
    · rintro rfl
      exact Option.some.inj (ha.symm.trans hb)
  · intro n name note hn hread
    obtain ⟨r, hr, rfl⟩ := Option.map_eq_some_iff.mp hread
    exact hnote name r (h.aliased.shared hn hr)

/-- A size written through one use of a variable, attached first, is read through another use,
attached later; a variable of another name stays undecided. -/
example :
    let s := run [.step (.construct (.var "x")), .step (.construct (.var "x")),
      .step (.construct (.var "y")), .attach 0, .write 0 fun note => { note with size := 8 },
      .attach 1, .attach 2] {}
    (s.ledger.note? 1).map Note.size = some 8 ∧ (s.ledger.note? 2).map Note.size = some 0 := by
  decide +kernel

end ProbeScript.Session
