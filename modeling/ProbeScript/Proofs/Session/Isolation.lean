import ProbeScript.Proofs.Session.Basic

/-!
# Proofs/Session/Isolation — probes do not get in each other's way

The storage of a probe is in the record of the probe, which is attached to no other node.  So the
requests of one probe are answered as if there were nothing else: what is done in a session changes
the storage of a probe by its own requests alone (`served_act`), and these get the answers they get
when they are made of a probe built alone (`requests_isolated`).
-/

namespace ProbeScript.Session

variable {s : Session} {p : NodeId}

/-- The request that an action makes of a probe, with its answer. -/
def answer? (s : Session) (p : NodeId) : Action → Option (Request × Reply)
  | .request probe r =>
    if probe = p ∧ s.forest.kind p = .probe then some (r, (s.ledger.request p r).1) else none
  | _ => none

/-- The requests that actions make of a probe, each with its answer. -/
def answers (p : NodeId) : List Action → Session → List (Request × Reply)
  | [], _ => []
  | a :: rest, s => (s.answer? p a).toList ++ answers p rest (s.act a)

/-- A session with one probe and nothing else. -/
def alone (spec : String) : Session := act {} (.step (.construct (.probe spec none none)))

/-- **An action serves one request from the storage of a probe, or it leaves that alone.** -/
theorem served_act (h : s.Sound) (p : NodeId) (a : Action) :
    (s.answer? p a = none ∧ (s.act a).ledger.frame p = s.ledger.frame p) ∨
      ∃ r, s.answer? p a = some (r, ((s.ledger.frame p).serve r).1) ∧
        (s.act a).ledger.frame p = ((s.ledger.frame p).serve r).2 := by
  cases a with
  | request probe r =>
    by_cases hprobe : s.forest.kind probe = .probe
    · have hframe := (h.request hprobe r).2.2 p
      rw [act, if_pos hprobe, answer?]
      by_cases hp : p = probe
      · subst hp
        rw [if_pos rfl] at hframe
        rw [if_pos ⟨rfl, hprobe⟩]
        exact .inr ⟨r, by rw [(s.ledger.request_cases p r).1], hframe⟩
      · rw [if_neg hp] at hframe
        rw [if_neg fun hc => hp hc.1.symm]
        exact .inl ⟨rfl, hframe⟩
    · have hother : ¬(probe = p ∧ s.forest.kind p = .probe) := fun hc => hprobe (hc.1 ▸ hc.2)
      rw [act, if_neg hprobe, answer?, if_neg hother]
      exact .inl ⟨rfl, rfl⟩
  | note name change =>
    have hframe := (h.aliased.kept_recordFor name).frame_eq p
    exact .inl ⟨rfl, (Ledger.frame_annotate ..).trans hframe⟩
  | write n change => exact .inl ⟨rfl, s.ledger.frame_annotateAt n change p⟩
  | step | turn | attach | replace | resolve | free =>
    exact .inl ⟨rfl, (h.calm_act (by exact trivial)).kept.frame_eq p⟩

/-- **The requests of a probe are served one after the other from its storage.** -/
theorem answers_eq (h : s.Sound) (p : NodeId) (actions : List Action) :
    (answers p actions s, (run actions s).ledger.frame p)
      = Frame.serveAll ((answers p actions s).map Prod.fst) (s.ledger.frame p) := by
  induction actions generalizing s with
  | nil => rfl
  | cons a actions ih =>
    have hrest := ih (h.act a)
    rw [answers, run]
    obtain ⟨hnone, hframe⟩ | ⟨r, hsome, hframe⟩ := served_act h p a
    · rw [hframe] at hrest
      rw [hnone]
      exact hrest
    · rw [hframe] at hrest
      rw [hsome, Option.toList_some, List.singleton_append, List.map_cons, Frame.serveAll_cons,
        ← hrest]

/-- Of a probe that nothing else is done to, all requests are answered. -/
theorem map_fst_answers (hp : s.forest.kind p = .probe) (rs : List Request) :
    (answers p (rs.map (Action.request p)) s).map Prod.fst = rs := by
  induction rs generalizing s with
  | nil => rfl
  | cons r rs ih =>
    have hact : (s.act (.request p r)).forest = s.forest := by
      rw [act, if_pos hp]
      rfl
    rw [List.map_cons, answers, answer?, if_pos ⟨rfl, hp⟩, Option.toList_some,
      List.singleton_append, List.map_cons, ih (by rw [hact, hp])]

/-- Requests made of a probe built alone, each with its answer, and the storage of the probe after
that. -/
def servedAlone (spec : String) (rs : List Request) : List (Request × Reply) × Frame :=
  let actions := rs.map (Action.request 0)
  (answers 0 actions (alone spec), (run actions (alone spec)).ledger.frame 0)

theorem servedAlone_eq (spec : String) (rs : List Request) :
    servedAlone spec rs = Frame.serveAll rs {} := by
  have h : (alone spec).Sound := sound_empty.act _
  have hserved := answers_eq h 0 (rs.map (Action.request 0))
  rwa [map_fst_answers (show (alone spec).forest.kind 0 = .probe from rfl)] at hserved

/-- **Probes do not get in each other's way.**  The requests made of a probe in the course of any
actions get the answers they get when they are made of a probe built alone, and leave its storage as
it is left there: its pools of registers and the offset of its stack.  The requests for registers
among them do so even without those for regions of the stack, as far as the registers go, and the
other way round. -/
theorem requests_isolated (actions : List Action) (p : NodeId) (spec : String) :
    let answered := answers p actions {}
    let frame := (run actions {}).ledger.frame p
    let registers := answered.filter fun served => served.1.isRegister
    let regions := answered.filter fun served => !served.1.isRegister
    servedAlone spec (answered.map Prod.fst) = (answered, frame) ∧
    ((servedAlone spec (registers.map Prod.fst)).1 = registers ∧
      (servedAlone spec (registers.map Prod.fst)).2.registers = frame.registers) ∧
    (servedAlone spec (regions.map Prod.fst)).1 = regions ∧
      (servedAlone spec (regions.map Prod.fst)).2.stack = frame.stack := by
  intro answered frame registers regions
  have hserved : (answered, frame) = Frame.serveAll (answered.map Prod.fst) {} :=
    answers_eq sound_empty p actions
  have hregisters := Frame.serveAll_again Frame.serves_registers (answered.map Prod.fst) {}
  have hregions := Frame.serveAll_again Frame.serves_stack (answered.map Prod.fst) {}
  rw [← hserved] at hregisters hregions
  simp only [servedAlone_eq]
  exact ⟨hserved.symm, hregisters, hregions⟩

/-- Two probes ask in turn; both start out with all registers, and a size refused takes nothing from
the stack. -/
example :
    answers 1 [.step (.construct (.probe "a" none none)), .step (.construct (.probe "b" none none)),
      .request 0 (.register .static), .request 1 (.register .static), .request 1 (.stack 0),
      .request 0 (.stack 16), .request 1 (.stack 8)] {}
      = [(.register .static, .register (some 6)), (.stack 0, .stack (.error (.badStackSize 0))),
        (.stack 8, .stack (.ok (-8)))] := by
  decide +kernel

end ProbeScript.Session
