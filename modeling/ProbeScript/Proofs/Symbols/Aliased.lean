import ProbeScript.Proofs.Arena.Freed
import ProbeScript.Proofs.Forest.Adding
import ProbeScript.Proofs.Ledger.Records
import ProbeScript.Provider.Resolution
import ProbeScript.Symbols.Attachment

/-!
# Proofs/Symbols/Aliased — records shared by name, and records of one node

There are two families of records.  Those of a table are shared by the maps and variables of one
name each, and any other record is that of one node, which names no symbol.  `Aliased` says that the
families are apart.  New records go to one of them and leave the other alone: a node gets one of its
own (`Aliased.attachNew`), a name gets one in the table (`Aliased.recordFor`), and attaching symbols
hands the latter out (`Aliased.attachAll`).  None of this disturbs what is decided already (`Kept`).
-/

namespace ProbeScript

/-- The symbol a node names. -/
def Forest.symbol? (f : Forest) (n : NodeId) : Option String := (f.shape n).symbol?

theorem Forest.lt_size_of_symbol? {f : Forest} {n : NodeId} {name : String}
    (h : f.symbol? n = some name) : n < f.size := by
  by_contra hn
  rw [symbol?, shape, f.node_eq_default (Nat.le_of_not_lt hn)] at h
  cases h

/-- The nodes that name a symbol are those of the kinds without records of their own. -/
theorem Shape.ownsRecord_kind (shape : Shape) :
    shape.kind.ownsRecord = true ↔ shape.symbol? = none := by
  cases shape <;> simp [Shape.kind, Kind.ownsRecord, Shape.symbol?]

/-- Nodes that name one symbol share its record, and all others have records of their own. -/
structure Aliased (f : Forest) (l : Ledger) (t : SymbolTable) : Prop where
  node_lt : ∀ {n r}, l.recordOf? n = some r → n < f.size
  record_lt : ∀ {n r}, l.recordOf? n = some r → r < l.records.size
  entry_lt : ∀ {name r}, t.get? name = some r → r < l.records.size
  /-- No two names have one record. -/
  entry_inj : ∀ {a b r}, t.get? a = some r → t.get? b = some r → a = b
  /-- The records of names hold no storage. -/
  plain : ∀ {name r}, t.get? name = some r → (l.record r).frame = none
  shared : ∀ {n r name}, f.symbol? n = some name → l.recordOf? n = some r → t.get? name = some r
  /-- A record of a node's own is in no table and attached to no other node. -/
  own : ∀ {n r}, f.symbol? n = none → l.recordOf? n = some r →
    (∀ name, t.get? name ≠ some r) ∧ ∀ m, l.recordOf? m = some r → m = n

/-- Nothing that is decided is disturbed on the way from one ledger and table to others: names keep
their records, nodes stay attached, and the notes of names and the storage of nodes stay as they
are. -/
structure Kept (l : Ledger) (t : SymbolTable) (l' : Ledger) (t' : SymbolTable) : Prop where
  get?_eq : ∀ {name r}, t.get? name = some r → t'.get? name = some r
  attached : ∀ {n}, l.recordOf? n ≠ none → l'.recordOf? n ≠ none
  note_eq : ∀ name, t'.note l' name = t.note l name
  frame_eq : ∀ p, l'.frame p = l.frame p

theorem Kept.refl (l : Ledger) (t : SymbolTable) : Kept l t l t :=
  ⟨id, id, fun _ => rfl, fun _ => rfl⟩

theorem Kept.trans {l l' l'' : Ledger} {t t' t'' : SymbolTable} (h : Kept l t l' t')
    (h' : Kept l' t' l'' t'') : Kept l t l'' t'' where
  get?_eq hr := h'.get?_eq (h.get?_eq hr)
  attached hn := h'.attached (h.attached hn)
  note_eq name := (h'.note_eq name).trans (h.note_eq name)
  frame_eq p := (h'.frame_eq p).trans (h.frame_eq p)

namespace Aliased

variable {f g : Forest} {l l' : Ledger} {t : SymbolTable} {n : NodeId} {r : RecordId}
  {name : String}

theorem empty : Aliased {} {} {} where
  node_lt h := nomatch h
  record_lt h := nomatch h
  entry_lt h := nomatch h
  entry_inj h := nomatch h
  plain h := nomatch h
  shared _ h := nomatch h
  own _ h := nomatch h

/-- The forest may grow while the nodes there name the symbols they name. -/
theorem grow (h : Aliased f l t) (hsize : f.size ≤ g.size)
    (hsymbol : ∀ n < f.size, g.symbol? n = f.symbol? n) : Aliased g l t where
  node_lt hr := Nat.lt_of_lt_of_le (h.node_lt hr) hsize
  record_lt := h.record_lt
  entry_lt := h.entry_lt
  entry_inj := h.entry_inj
  plain := h.plain
  shared hn hr := h.shared (hsymbol _ (h.node_lt hr) ▸ hn) hr
  own hn hr := h.own (hsymbol _ (h.node_lt hr) ▸ hn) hr

/-- Records may change in place while those of names hold no storage. -/
theorem congr (h : Aliased f l t) (hsize : l'.records.size = l.records.size)
    (hrecordOf : ∀ n, l'.recordOf? n = l.recordOf? n)
    (hplain : ∀ {name r}, t.get? name = some r → (l'.record r).frame = none) : Aliased f l' t where
  node_lt hr := h.node_lt (hrecordOf _ ▸ hr)
  record_lt hr := hsize ▸ h.record_lt (hrecordOf _ ▸ hr)
  entry_lt hr := hsize ▸ h.entry_lt hr
  entry_inj := h.entry_inj
  plain := hplain
  shared hn hr := h.shared hn (hrecordOf _ ▸ hr)
  own hn hr := by
    obtain ⟨hentry, hother⟩ := h.own hn (hrecordOf _ ▸ hr)
    exact ⟨hentry, fun m hm => hother m (hrecordOf m ▸ hm)⟩

theorem recordOf?_eq_none (h : Aliased f l t) (hn : f.size ≤ n) : l.recordOf? n = none :=
  Option.eq_none_iff_forall_ne_some.mpr fun _ hr => Nat.not_lt.mpr hn (h.node_lt hr)

/-- A node that names a symbol has no storage. -/
theorem frame_of_symbol? (h : Aliased f l t) (hn : f.symbol? n = some name) : l.frame n = {} := by
  rw [Ledger.frame]
  cases hr : l.recordOf? n with
  | none => rfl
  | some r => rw [Option.bind_some, h.plain (h.shared hn hr), Option.getD_none]

/-! ## A record for one node -/

/-- **A node that names no symbol gets a new record of its own.** -/
theorem attachNew (h : Aliased f l t) (hn : n < f.size) (hsymbol : f.symbol? n = none)
    (record : Record) : Aliased f ((l.create record).2.attach n l.records.size) t where
  node_lt {m q} hq := by
    rw [Ledger.recordOf?_attach] at hq
    split at hq
    · rename_i hm
      exact hm ▸ hn
    · exact h.node_lt hq
  record_lt {m q} hq := by
    rw [Ledger.recordOf?_attach] at hq
    rw [Ledger.size_attach, Ledger.size_create]
    split at hq
    · exact Option.some.inj hq ▸ Nat.lt_succ_self _
    · exact Nat.lt_succ_of_lt (h.record_lt hq)
  entry_lt hq := by
    rw [Ledger.size_attach, Ledger.size_create]
    exact Nat.lt_succ_of_lt (h.entry_lt hq)
  entry_inj := h.entry_inj
  plain hq := by
    rw [Ledger.record_attach, Ledger.record_create, if_neg (Nat.ne_of_lt (h.entry_lt hq))]
    exact h.plain hq
  shared {m q name} hm hq := by
    rw [Ledger.recordOf?_attach, if_neg fun hmn : m = n => by
      rw [hmn, hsymbol] at hm
      cases hm] at hq
    exact h.shared hm hq
  own {m q} hm hq := by
    -- The new record is in use nowhere else, for it was not in use at all.
    have hnew : ∀ k, l.recordOf? k ≠ some l.records.size := fun k hk =>
      Nat.lt_irrefl _ (h.record_lt hk)
    rw [Ledger.recordOf?_attach] at hq
    split at hq
    · rename_i hmn
      obtain rfl := Option.some.inj hq
      refine ⟨fun name hname => Nat.lt_irrefl _ (h.entry_lt hname), fun k hk => ?_⟩
      rw [Ledger.recordOf?_attach] at hk
      split at hk
      · rename_i hkn
        rw [hkn, hmn]
      · exact absurd hk (hnew k)
    · obtain ⟨hentry, hother⟩ := h.own hm hq
      refine ⟨hentry, fun k hk => ?_⟩
      rw [Ledger.recordOf?_attach] at hk
      split at hk
      · exact absurd (Option.some.inj hk ▸ hq) (hnew m)
      · exact hother k hk

/-- A new record disturbs nothing if it holds the storage there was. -/
theorem kept_attachNew (h : Aliased f l t) {record : Record}
    (hframe : record.frame.getD {} = l.frame n) :
    Kept l t ((l.create record).2.attach n l.records.size) t where
  get?_eq := id
  attached {m} hm := by
    rw [Ledger.recordOf?_attach]
    split
    · exact Option.some_ne_none _
    · exact hm
  note_eq name := SymbolTable.note_congr rfl fun q hq => by
    rw [Ledger.record_attach, Ledger.record_create, if_neg (Nat.ne_of_lt (h.entry_lt hq))]
  frame_eq p := by
    by_cases hp : p = n
    · rw [Ledger.frame, Ledger.recordOf?_attach, if_pos hp, Option.bind_some, Ledger.record_attach,
        Ledger.record_create, if_pos rfl, hframe, hp]
    · refine Ledger.frame_congr ?_ fun q hq => ?_
      · rw [Ledger.recordOf?_attach, if_neg hp, Ledger.recordOf?_create]
      · rw [Ledger.record_attach, Ledger.record_create, if_neg (Nat.ne_of_lt (h.record_lt hq))]

/-! ## The record of a name -/

/-- **Asking for the record of a name leaves the families apart.** -/
theorem recordFor (h : Aliased f l t) (name : String) :
    Aliased f (t.recordFor l name).2.2 (t.recordFor l name).2.1 := by
  have hcases := @t.get?_cases_of_recordFor l name
  have hold := @t.get?_recordFor_of_some l name
  cases hname : t.get? name with
  | some r =>
    rw [t.recordFor_of_some l hname]
    exact h
  | none =>
    rw [t.recordFor_of_none l hname] at hcases hold ⊢
    refine ⟨h.node_lt, fun hr => ?_, fun hr => ?_, fun {a b r} ha hb => ?_, fun hr => ?_,
      fun hn hr => hold (h.shared hn hr), fun hn hr => ?_⟩
    · rw [Ledger.size_create]
      exact Nat.lt_succ_of_lt (h.record_lt hr)
    · rw [Ledger.size_create]
      rcases hcases hr with ⟨-, rfl⟩ | hr
      · exact Nat.lt_succ_self _
      · exact Nat.lt_succ_of_lt (h.entry_lt hr)
    · -- The new record is that of no other name, for it was not in use.
      rcases hcases ha with ⟨hname, hra⟩ | ha' <;> rcases hcases hb with ⟨hname', hrb⟩ | hb'
      · rw [hname, hname']
      · exact absurd (h.entry_lt hb') (hra ▸ Nat.lt_irrefl _)
      · exact absurd (h.entry_lt ha') (hrb ▸ Nat.lt_irrefl _)
      · exact h.entry_inj ha' hb'
    · rw [Ledger.record_create]
      rcases hcases hr with ⟨-, rfl⟩ | hr
      · rw [if_pos rfl]
      · rw [if_neg (Nat.ne_of_lt (h.entry_lt hr))]
        exact h.plain hr
    · obtain ⟨hentry, hother⟩ := h.own hn hr
      refine ⟨fun a ha => ?_, hother⟩
      rcases hcases ha with ⟨-, rfl⟩ | ha
      · exact Nat.lt_irrefl _ (h.record_lt hr)
      · exact hentry a ha

theorem kept_recordFor (h : Aliased f l t) (name : String) :
    Kept l t (t.recordFor l name).2.2 (t.recordFor l name).2.1 := by
  have hget := t.get?_recordFor l name
  have hold := @t.get?_recordFor_of_some l name
  cases hname : t.get? name with
  | some r =>
    rw [t.recordFor_of_some l hname]
    exact .refl l t
  | none =>
    rw [t.recordFor_of_none l hname] at hget hold ⊢
    refine ⟨hold, id, fun a => ?_, fun p => ?_⟩
    · by_cases ha : a = name
      · rw [SymbolTable.note_of_some _ _ ((hget a).trans (if_pos ha)), ha, t.note_of_none _ hname,
          Ledger.record_create, if_pos rfl]
        rfl
      · refine SymbolTable.note_congr ((hget a).trans (if_neg ha)) fun r hr => ?_
        rw [Ledger.record_create, if_neg (Nat.ne_of_lt (h.entry_lt hr))]
    · refine Ledger.frame_congr rfl fun q hq => ?_
      rw [Ledger.record_create, if_neg (Nat.ne_of_lt (h.record_lt hq))]

/-! ## Attaching records of names -/

/-- **A node gets the record of the symbol it names.** -/
theorem attach (h : Aliased f l t) (hn : f.symbol? n = some name) (hr : t.get? name = some r) :
    Aliased f (l.attach n r) t where
  node_lt {m q} hq := by
    rw [Ledger.recordOf?_attach] at hq
    split at hq
    · rename_i hm
      exact hm ▸ Forest.lt_size_of_symbol? hn
    · exact h.node_lt hq
  record_lt {m q} hq := by
    rw [Ledger.recordOf?_attach] at hq
    split at hq
    · exact Option.some.inj hq ▸ h.entry_lt hr
    · exact h.record_lt hq
  entry_lt := h.entry_lt
  entry_inj := h.entry_inj
  plain := h.plain
  shared {m q other} hm hq := by
    rw [Ledger.recordOf?_attach] at hq
    split at hq
    · rename_i hmn
      rw [hmn, hn] at hm
      rwa [← Option.some.inj hm, ← Option.some.inj hq]
    · exact h.shared hm hq
  own {m q} hm hq := by
    rw [Ledger.recordOf?_attach, if_neg fun hmn : m = n => by
      rw [hmn, hn] at hm
      cases hm] at hq
    obtain ⟨hentry, hother⟩ := h.own hm hq
    refine ⟨hentry, fun k hk => ?_⟩
    rw [Ledger.recordOf?_attach] at hk
    split at hk
    · exact absurd (Option.some.inj hk ▸ hr) (hentry name)
    · exact hother k hk

theorem kept_attach (h : Aliased f l t) (hn : f.symbol? n = some name)
    (hr : t.get? name = some r) : Kept l t (l.attach n r) t where
  get?_eq := id
  attached {m} hm := by
    rw [Ledger.recordOf?_attach]
    split
    · exact Option.some_ne_none _
    · exact hm
  note_eq _ := rfl
  frame_eq p := by
    by_cases hp : p = n
    · rw [hp, h.frame_of_symbol? hn, (h.attach hn hr).frame_of_symbol? hn]
    · exact Ledger.frame_congr (by rw [Ledger.recordOf?_attach, if_neg hp]) fun _ _ => rfl

/-- **Attaching symbols below a node leaves the families apart and disturbs nothing**, even where
the descent does not end. -/
theorem attachAll (h : Aliased f l t) (root : NodeId) :
    let s := (Attachment.run f root ⟨t, l, 0⟩).2
    Aliased f s.ledger s.symbols ∧ Kept l t s.ledger s.symbols := by
  let P (s : Attachment) : Prop := Aliased f s.ledger s.symbols ∧ Kept l t s.ledger s.symbols
  have hvisit : ∀ n s, P s → P (Attachment.visit f n s).2 := fun n s ⟨hs, hkept⟩ => by
    change P (((f.symbol? n).map (s.attach n)).getD s)
    cases hn : f.symbol? n with
    | none => exact ⟨hs, hkept⟩
    | some name =>
      have hnew := hs.recordFor name
      have hr := s.symbols.get?_recordFor s.ledger name name
      rw [if_pos rfl] at hr
      exact ⟨hnew.attach hn hr,
        (hkept.trans (hs.kept_recordFor name)).trans (hnew.kept_attach hn hr)⟩
  have hwalk : P (f.walk root (some (Attachment.visit f)) none ⟨t, l, 0⟩).2 :=
    Forest.walk_keeps hvisit (fun _ _ hs => hs) root ⟨h, .refl l t⟩
  exact hwalk

/-! ## Changes in place -/

/-- Changes that leave notes and storage alone disturb nothing. -/
theorem modifyAt (h : Aliased f l t) (n : NodeId) (change : Record → Record)
    (hnote : ∀ record, (change record).note = record.note)
    (hframe : ∀ record, (change record).frame = record.frame) :
    Aliased f (l.modifyAt n change) t ∧ Kept l t (l.modifyAt n change) t := by
  cases hr : l.recordOf? n with
  | none =>
    rw [l.modifyAt_of_none hr]
    exact ⟨h, .refl l t⟩
  | some r =>
    rw [l.modifyAt_of_some hr]
    have hrecord : ∀ q, ((l.modify r change).record q).note = (l.record q).note ∧
        ((l.modify r change).record q).frame = (l.record q).frame := fun q => by
      rw [Ledger.record_modify]
      split
      · exact ⟨hnote _, hframe _⟩
      · exact ⟨rfl, rfl⟩
    exact ⟨h.congr (l.size_modify ..) (fun _ => rfl) fun hq => (hrecord _).2.trans (h.plain hq),
      id, id, fun _ => SymbolTable.note_congr rfl fun q _ => (hrecord q).1,
      fun _ => Ledger.frame_congr rfl fun q _ => (hrecord q).2⟩

/-- **Finding providers disturbs neither notes nor storage.** -/
theorem resolve (h : Aliased f l t) (script : NodeId) (providers : List Provider) (file : String) :
    Aliased f (l.resolve f script providers file).ledger t ∧
      Kept l t (l.resolve f script providers file).ledger t := by
  let P (s : Resolution) : Prop := Aliased f s.ledger t ∧ Kept l t s.ledger t
  have hstep : ∀ s n, P s → P (Resolution.step f providers file s n) := fun s n ⟨hs, hkept⟩ => by
    unfold Resolution.step
    split
    · split
      · rename_i provider _
        obtain ⟨hfound, hfoundKept⟩ := hs.modifyAt n
          (fun record => { record with provider := some provider }) (fun _ => rfl) fun _ => rfl
        exact ⟨hfound, hkept.trans hfoundKept⟩
      · exact ⟨hs, hkept⟩
    · exact ⟨hs, hkept⟩
  have hfold : ∀ (ns : List NodeId) (s : Resolution), P s →
      P (ns.foldl (Resolution.step f providers file) s) := fun ns => by
    induction ns with
    | nil => exact fun _ hs => hs
    | cons n ns ih => exact fun s hs => ih _ (hstep s n hs)
  exact hfold _ { ledger := l } ⟨h, .refl l t⟩

end Aliased

end ProbeScript
