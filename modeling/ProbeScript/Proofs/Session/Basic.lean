import ProbeScript.Proofs.Frame.Served
import ProbeScript.Proofs.Symbols.Aliased
import ProbeScript.Proofs.Workshop.Minted

/-!
# Proofs/Session/Basic — a workshop with a symbol table

A session is a workshop together with one symbol table.  Nodes are built in it and joined, with any
arenas in turn; symbols are attached to trees built so far, records are written in place or put in
the place of others, providers are found, storage is asked for, and trees are freed.  Whatever is
done in whatever order, records shared by name and records of one node stay apart (`Session.sound`).
-/

namespace ProbeScript

open Forest

/-- A workshop with one symbol table. -/
structure Session extends Workshop where
  symbols : SymbolTable := {}

/-- One thing to do in a session. -/
inductive Action where
  | step (s : Step)
  /-- Another arena takes over. -/
  | turn (arena : Arena)
  | attach (root : NodeId)
  /-- Changes the note of a name in place, by way of the table. -/
  | note (name : String) (change : Note → Note)
  /-- Changes the note of a node in place. -/
  | write (n : NodeId) (change : Note → Note)
  /-- Gives a node that names no symbol a new record. -/
  | replace (n : NodeId) (note : Note)
  | resolve (script : NodeId) (providers : List Provider) (file : String)
  | request (probe : NodeId) (r : Request)
  | free (root : NodeId)

/-- Serves one request of a probe.  A fault leaves the ledger as it was. -/
def Ledger.request (l : Ledger) (probe : NodeId) : Request → Reply × Ledger
  | .register cls =>
    let (granted, l) := l.acquireRegister probe cls
    (.register granted, l)
  | .stack size =>
    match l.acquireStack probe size with
    | .ok (offset, l) => (.stack (.ok offset), l)
    | .error fault => (.stack (.error fault), l)

namespace Session

/-- The session with another ledger. -/
def withLedger (s : Session) (ledger : Ledger) : Session := { s with ledger }

/-- Does one thing.  What meets a fault is left as far as it has come. -/
def act (s : Session) : Action → Session
  | .step a => { s with toWorkshop := (s.toWorkshop.step a).2 }
  | .turn arena => { s with arena }
  | .attach root =>
    let a := (Attachment.run s.forest root ⟨s.symbols, s.ledger, 0⟩).2
    { s.withLedger a.ledger with symbols := a.symbols }
  | .note name change =>
    let (r, symbols, ledger) := s.symbols.recordFor s.ledger name
    { s.withLedger (ledger.annotate r change) with symbols }
  | .write n change => s.withLedger (s.ledger.annotateAt n change)
  | .replace n note =>
    if n < s.forest.size ∧ (s.forest.kind n).ownsRecord then
      s.withLedger (s.ledger.replace n note)
    else s
  | .resolve script providers file =>
    s.withLedger (s.ledger.resolve s.forest script providers file).ledger
  | .request probe r =>
    if s.forest.kind probe = .probe then s.withLedger (s.ledger.request probe r).2 else s
  | .free root => { s with arena := (s.arena.free s.forest root).2 }

/-- Does one thing after the other. -/
def run : List Action → Session → Session
  | [], s => s
  | a :: rest, s => run rest (s.act a)

/-- Records shared by name and records of one node are apart, and no node lacks one of its own. -/
structure Sound (s : Session) : Prop where
  aliased : Aliased s.forest s.ledger s.symbols
  covered : ∀ n < s.forest.size, s.forest.symbol? n = none → s.ledger.recordOf? n ≠ none

end Session

/-! ## Building -/

theorem Forest.symbol?_add (f : Forest) (shape : Shape) (n : NodeId) :
    (f.add shape).2.symbol? n = if n = f.size then shape.symbol? else f.symbol? n := by
  rw [symbol?, shape_add, apply_ite Shape.symbol?]
  rfl

theorem Forest.symbol?_setModule (f : Forest) (n : NodeId) (module : String) (m : NodeId) :
    (f.setModule n module).symbol? m = f.symbol? m :=
  read_setModule (fun _ _ _ _ _ => rfl) f n module m

theorem Workshop.firstRecord?_of_symbol? {shape : Shape} {name : String}
    (h : shape.symbol? = some name) : firstRecord? shape = none := by
  rw [firstRecord?, if_neg]
  rw [shape.ownsRecord_kind, h]
  exact Option.some_ne_none name

/-- A node that names no symbol gets a record, with storage that nothing was taken from if with
any. -/
theorem Workshop.exists_firstRecord {shape : Shape} (h : shape.symbol? = none) :
    ∃ record, firstRecord? shape = some record ∧ record.frame.getD {} = {} := by
  rw [firstRecord?, if_pos (shape.ownsRecord_kind.mpr h)]
  refine ⟨_, rfl, ?_⟩
  by_cases hprobe : shape.kind = .probe <;> simp [hprobe]

namespace Session

/-- One session leads to another in which nothing that is decided is disturbed. -/
structure Calm (s s' : Session) : Prop where
  sound : s'.Sound
  kept : Kept s.ledger s.symbols s'.ledger s'.symbols

variable {s s' s'' : Session}

theorem Sound.calm (h : s.Sound) : s.Calm s := ⟨h, .refl _ _⟩

theorem Calm.trans (h : s.Calm s') (h' : s'.Calm s'') : s.Calm s'' :=
  ⟨h'.sound, h.kept.trans h'.kept⟩

/-- Nodes may change while they name the symbols they name. -/
theorem Sound.withForest (h : s.Sound) {g : Forest} (hsize : g.size = s.forest.size)
    (hsymbol : ∀ n, g.symbol? n = s.forest.symbol? n) :
    Calm s { s with toWorkshop := s.toWorkshop.withForest g } where
  sound := ⟨h.aliased.grow (Nat.le_of_eq hsize.symm) fun n _ => hsymbol n, fun n hn hsymbol' =>
    h.covered n (hsize ▸ hn) (hsymbol n ▸ hsymbol')⟩
  kept := .refl _ _

/-- **A node minted gets a record of its own unless it names a symbol.** -/
theorem Sound.mint (h : s.Sound) (shape : Shape) :
    Calm s { s with toWorkshop := (s.toWorkshop.mint shape).2 } := by
  have hgrown : Aliased (s.forest.add shape).2 s.ledger s.symbols :=
    h.aliased.grow (by simp) fun n hn => by rw [symbol?_add, if_neg (Nat.ne_of_lt hn)]
  have hcovered : ∀ l : Ledger, (∀ n, s.ledger.recordOf? n ≠ none → l.recordOf? n ≠ none) →
      (shape.symbol? = none → l.recordOf? s.forest.size ≠ none) →
      ∀ n < (s.forest.add shape).2.size, (s.forest.add shape).2.symbol? n = none →
        l.recordOf? n ≠ none := by
    intro l hold hnew n hn hsymbol
    rw [symbol?_add] at hsymbol
    rw [size_add] at hn
    split at hsymbol
    · rename_i hn
      exact hn ▸ hnew hsymbol
    · rename_i hne
      exact hold n (h.covered n (Nat.lt_of_le_of_ne (Nat.le_of_lt_succ hn) hne) hsymbol)
  cases hsymbol : shape.symbol? with
  | some name =>
    rw [Workshop.mint_of_none (Workshop.firstRecord?_of_symbol? hsymbol)]
    exact ⟨⟨hgrown, hcovered _ (fun _ => id) fun hnone => by cases hsymbol.symm.trans hnone⟩,
      .refl _ _⟩
  | none =>
    obtain ⟨record, hrecord, hframe⟩ := Workshop.exists_firstRecord hsymbol
    have hfresh : record.frame.getD {} = s.ledger.frame s.forest.size := by
      rw [hframe, Ledger.frame, h.aliased.recordOf?_eq_none (Nat.le_refl _)]
      rfl
    have hkept := hgrown.kept_attachNew hfresh
    rw [Workshop.mint_of_some hrecord]
    refine ⟨⟨hgrown.attachNew (by simp) (by rw [symbol?_add, if_pos rfl, hsymbol]) record,
      hcovered _ (fun _ => hkept.attached) fun _ => ?_⟩, hkept⟩
    rw [Ledger.recordOf?_attach, if_pos rfl]
    exact Option.some_ne_none _

/-- **A step taken in a session disturbs nothing that is decided.** -/
theorem Sound.step (h : s.Sound) (a : Step) : Calm s (s.act (.step a)) := by
  -- What appending and joining keep of the forest.
  let P (g : Forest) : Prop := g.size = s.forest.size ∧ ∀ n, g.symbol? n = s.forest.symbol? n
  have hset : ∀ {g : Forest} (last n : NodeId), P g → P (g.setNext last n) :=
    fun last n ⟨hsize, hsymbol⟩ => ⟨(size_setNext ..).trans hsize, fun m => by
      rw [symbol?, shape_setNext]
      exact hsymbol m⟩
  rw [act]
  obtain ⟨c, n, w, -, hw, hstep⟩ | ⟨head, n, first, g, -, hw, hstep⟩ | ⟨ns, -, hstep⟩ |
    ⟨-, arena, hstep⟩ := s.toWorkshop.step_cases a <;> rw [hstep]
  · -- A construction is a sequence of mints and marks.
    have hmints : ∀ {ns : List NodeId} {w : Workshop}, s.toWorkshop.Mints ns w →
        Calm s { s with toWorkshop := w } := fun hmints => by
      induction hmints with
      | start => exact h.calm
      | mark _ n module ih =>
        exact ih.trans (ih.sound.withForest (size_setModule ..) (symbol?_setModule _ n module))
      | mint _ shape ih => exact ih.trans (ih.sound.mint shape)
    exact hmints (Workshop.mints_of_construct hw)
  · have hjoined : P g := append_keeps hset ⟨rfl, fun _ => rfl⟩ hw
    exact h.withForest hjoined.1 hjoined.2
  · have hjoined : P (s.forest.link ns).2 := linkFrom_keeps hset ns none ⟨rfl, fun _ => rfl⟩
    exact h.withForest hjoined.1 hjoined.2
  · exact ⟨⟨h.aliased, h.covered⟩, .refl _ _⟩

/-! ## Attaching, replacing, finding providers -/

/-- Records may be attached and replaced where that disturbs nothing. -/
theorem Sound.withBooks (h : s.Sound) {l : Ledger} {t : SymbolTable} (ha : Aliased s.forest l t)
    (hkept : Kept s.ledger s.symbols l t) : Calm s { s.withLedger l with symbols := t } :=
  ⟨⟨ha, fun n hn hsymbol => hkept.attached (h.covered n hn hsymbol)⟩, hkept⟩

/-- A new record in the place of a node's own keeps its storage. -/
theorem Sound.replace (h : s.Sound) (n : NodeId) (note : Note) :
    Calm s (s.act (.replace n note)) := by
  rw [act]
  split
  · rename_i hn
    have hsymbol : s.forest.symbol? n = none := (Shape.ownsRecord_kind _).mp hn.2
    exact h.withBooks (h.aliased.attachNew hn.1 hsymbol _) (h.aliased.kept_attachNew rfl)
  · exact h.calm

end Session

/-- The actions other than writing notes and asking for storage. -/
def Action.IsCalm : Action → Prop
  | .note _ _ | .write _ _ | .request _ _ => False
  | _ => True

namespace Session

variable {s : Session}

/-- **Nothing that is decided is disturbed but by writing notes and asking for storage.** -/
theorem Sound.calm_act (h : s.Sound) {a : Action} (ha : a.IsCalm) : Calm s (s.act a) := by
  cases a with
  | step a => exact h.step a
  | turn arena => exact ⟨⟨h.aliased, h.covered⟩, .refl _ _⟩
  | attach root =>
    obtain ⟨hattached, hkept⟩ := h.aliased.attachAll root
    exact h.withBooks hattached hkept
  | replace n note => exact h.replace n note
  | resolve script providers file =>
    obtain ⟨hresolved, hkept⟩ := h.aliased.resolve script providers file
    exact h.withBooks hresolved hkept
  | free root => exact ⟨⟨h.aliased, h.covered⟩, .refl _ _⟩
  | note | write | request => exact ha.elim

/-! ## Writing notes and asking for storage -/

/-- A record may change in place unless it is that of a name and comes to hold storage. -/
theorem Sound.modify (h : s.Sound) {r : RecordId} {change : Record → Record}
    (hplain : ∀ name, s.symbols.get? name = some r → ∀ record : Record,
      record.frame = none → (change record).frame = none) :
    (s.withLedger (s.ledger.modify r change)).Sound where
  aliased := h.aliased.congr (Ledger.size_modify ..) (fun _ => rfl) fun {name q} hq => by
    rw [withLedger, Ledger.record_modify]
    split
    · rename_i hr
      exact hplain name (hr.1 ▸ hq) _ (h.aliased.plain hq)
    · exact h.aliased.plain hq
  covered := h.covered

/-- The record of a probe is its own. -/
theorem Sound.exists_own (h : s.Sound) {p : NodeId} (hp : s.forest.kind p = .probe) :
    ∃ r, s.ledger.recordOf? p = some r ∧ r < s.ledger.records.size ∧
      (∀ name, s.symbols.get? name ≠ some r) ∧ ∀ m, s.ledger.recordOf? m = some r → m = p := by
  have hlt : p < s.forest.size := by
    by_contra hge
    rw [Forest.kind, Forest.shape, s.forest.node_eq_default (Nat.le_of_not_lt hge)] at hp
    cases hp
  have hsymbol : s.forest.symbol? p = none := (Shape.ownsRecord_kind _).mp (by
    rw [Forest.kind] at hp
    rw [hp]
    rfl)
  obtain ⟨r, hr⟩ := Option.ne_none_iff_exists'.mp (h.covered p hlt hsymbol)
  exact ⟨r, hr, h.aliased.record_lt hr, h.aliased.own hsymbol hr⟩

end Session

/-- A request is answered from the storage of the probe, which is then put back unless there was a
fault. -/
theorem Ledger.request_cases (l : Ledger) (p : NodeId) (r : Request) :
    (l.request p r).1 = ((l.frame p).serve r).1 ∧
      ((l.request p r).2 = l.setFrame p ((l.frame p).serve r).2 ∨
        (l.request p r).2 = l ∧ ((l.frame p).serve r).2 = l.frame p) := by
  cases r with
  | register cls => exact ⟨rfl, .inl rfl⟩
  | stack size =>
    rw [request, acquireStack, Frame.serve]
    cases (l.frame p).acquireStack size with
    | ok granted => exact ⟨rfl, .inl rfl⟩
    | error fault => exact ⟨rfl, .inr ⟨rfl, rfl⟩⟩

namespace Session

variable {s : Session}

/-- **A request changes the storage of its probe**, that of no other node, and no note of a name. -/
theorem Sound.request (h : s.Sound) {p : NodeId} (hp : s.forest.kind p = .probe) (r : Request) :
    (s.withLedger (s.ledger.request p r).2).Sound ∧
      (∀ name, s.symbols.note (s.ledger.request p r).2 name = s.symbols.note s.ledger name) ∧
      ∀ q, (s.ledger.request p r).2.frame q
        = if q = p then ((s.ledger.frame p).serve r).2 else s.ledger.frame q := by
  obtain ⟨own, hown, hlt, hentry, hother⟩ := h.exists_own hp
  obtain ⟨-, hset | ⟨hsame, hserved⟩⟩ := s.ledger.request_cases p r
  · rw [hset, Ledger.setFrame, s.ledger.modifyAt_of_some hown]
    refine ⟨h.modify fun name hname => absurd hname (hentry name), fun name => ?_, fun q => ?_⟩
    · rw [SymbolTable.note_modify, if_neg fun hname => hentry name hname.1]
    · rw [Ledger.frame_modify]
      by_cases hq : q = p
      · rw [if_pos ⟨hq ▸ hown, hlt⟩, if_pos hq]
        rfl
      · rw [if_neg fun hqown => hq (hother q hqown.1), if_neg hq]
  · rw [hsame]
    refine ⟨h, fun _ => rfl, fun q => ?_⟩
    split
    · rename_i hq
      rw [hserved, hq]
    · rfl

/-- **Whatever is done, records shared by name and records of one node stay apart.** -/
theorem Sound.act (h : s.Sound) (a : Action) : (s.act a).Sound := by
  cases a with
  | note name change =>
    have hnamed := h.withBooks (h.aliased.recordFor name) (h.aliased.kept_recordFor name)
    exact hnamed.sound.modify fun _ _ _ => id
  | write n change =>
    rw [Session.act, Ledger.annotateAt_eq]
    cases hr : s.ledger.recordOf? n with
    | none =>
      rw [s.ledger.modifyAt_of_none hr]
      exact h
    | some r =>
      rw [s.ledger.modifyAt_of_some hr]
      exact h.modify fun _ _ _ => id
  | request p r =>
    rw [Session.act]
    split
    · exact (h.request ‹_› r).1
    · exact h
  | step | turn | attach | replace | resolve | free => exact (h.calm_act (by exact trivial)).sound

theorem sound_empty : Sound {} := ⟨.empty, fun n hn => absurd hn (Nat.not_lt_zero n)⟩

/-- **In every session records shared by name and records of one node are apart.** -/
theorem Sound.run (h : s.Sound) (actions : List Action) : (run actions s).Sound := by
  induction actions generalizing s with
  | nil => exact h
  | cons a actions ih => exact ih (h.act a)

end Session

end ProbeScript
