import Mathlib.Logic.Function.Basic
import ProbeScript.Proofs.Arena.Custody
import ProbeScript.Symbols.Attachment

/-!
# Proofs/Arena/Accounting — the books of all arenas balance

Nodes are built in any number of arenas, linked across them and freed again, and records are changed
in between in any way.  The books of an arena balance (`Arena.Balanced`): what it owns and what it
has released is together what was built in it, and its count of records is that of the nodes it
owns whose kind has records of their own.  Neither a mint nor a release upsets this, so nothing that
can be done does (`Yard.balanced_act`).
-/

namespace ProbeScript

open Forest

/-- The nodes that came to an arena, going by a log. -/
def takenIn (log : List Handover) : List NodeId := log.filterMap Handover.taken?

/-- The nodes released from an arena, going by a log. -/
def releasedIn (log : List Handover) : List NodeId := log.filterMap Handover.released?

/-! ## Forests that keep the kinds of their nodes -/

/-- A forest has all nodes of another one, each of the kind it has there. -/
structure Forest.Extends (g f : Forest) : Prop where
  size_le : f.size ≤ g.size
  kind_eq : ∀ n < f.size, g.kind n = f.kind n

namespace Forest.Extends

variable {f g h : Forest}

theorem refl (f : Forest) : f.Extends f := ⟨Nat.le_refl _, fun _ _ => rfl⟩

theorem trans (hgf : g.Extends f) (hhg : h.Extends g) : h.Extends f where
  size_le := Nat.le_trans hgf.size_le hhg.size_le
  kind_eq n hn := (hhg.kind_eq n (Nat.lt_of_lt_of_le hn hgf.size_le)).trans (hgf.kind_eq n hn)

theorem add (f : Forest) (shape : Shape) : (f.add shape).2.Extends f where
  size_le := by
    rw [size_add]
    exact Nat.le_succ _
  kind_eq n hn := by rw [kind_add, if_neg (Nat.ne_of_lt hn)]

theorem setModule (f : Forest) (n : NodeId) (module : String) : (f.setModule n module).Extends f :=
  ⟨Nat.le_of_eq (f.size_setModule n module).symm, fun m _ => f.kind_setModule n module m⟩

theorem setNext (f : Forest) (n m : NodeId) : (f.setNext n m).Extends f :=
  ⟨Nat.le_of_eq (f.size_setNext n m).symm,
    fun k _ => congrArg Shape.kind (f.shape_setNext n m k)⟩

theorem append {head : Option NodeId} {n first : NodeId} (h : f.append head n = .ok (first, g)) :
    g.Extends f :=
  append_keeps (P := fun g => g.Extends f) (fun last n hg => hg.trans (setNext _ last n))
    (refl f) h

theorem linkFrom (ns : List NodeId) (f : Forest) (head : Option NodeId) :
    (f.linkFrom head ns).2.Extends f :=
  linkFrom_keeps (P := fun g => g.Extends f) (fun last n hg => hg.trans (setNext _ last n)) ns head
    (refl f)

end Forest.Extends

theorem Workshop.Mints.extends {w w' : Workshop} {ns : List NodeId} (h : w.Mints ns w') :
    w'.forest.Extends w.forest := by
  induction h with
  | start => exact .refl _
  | mark _ n module ih => exact ih.trans (.setModule _ n module)
  | @mint _ w' _ shape ih =>
    rw [forest_mint]
    exact ih.trans (.add w'.forest shape)

/-! ## Balanced books -/

namespace Arena

/-- The books of an arena balance with its log. -/
structure Balanced (a : Arena) (f : Forest) (log : List Handover) : Prop where
  /-- What it owns and what it has released is what came to it, and that came once. -/
  perm : (a.live.map Prod.fst ++ releasedIn log).Perm (takenIn log)
  nodup : (takenIn log).Nodup
  lt_size : ∀ n ∈ takenIn log, n < f.size
  /-- A node came with a record just when its kind has records of its own. -/
  isSome_eq : ∀ entry ∈ a.live, entry.2.isSome = (f.kind entry.1).ownsRecord
  records_eq : a.records = a.live.countP fun entry => entry.2.isSome

variable {a a' : Arena} {f g : Forest} {log : List Handover} {n : NodeId} {ns : List NodeId}

/-- A release takes the entry of the node out and corrects the count. -/
theorem exists_of_release (hnodup : (a.live.map Prod.fst).Nodup) (h : a.release f n = .ok a') :
    ∃ before record after, a.live = before ++ (n, record) :: after ∧
      a'.live = before ++ after ∧
      a'.records = if record.isSome then a.records - 1 else a.records := by
  have hlive := live_of_release h
  rw [release] at h
  cases hentry : a.entry? n with
  | none =>
    rw [hentry] at h
    cases h
  | some entry =>
    rw [hentry] at h
    obtain ⟨hn, before, after, hsplit, -⟩ := List.find?_eq_some_iff_append.mp hentry
    obtain ⟨m, record⟩ := entry
    obtain rfl : m = n := beq_iff_eq.mp hn
    refine ⟨before, record, after, hsplit, ?_, congrArg records (Except.ok.inj h).symm⟩
    -- No other entry is one of the node, so the filter takes out this one alone.
    rw [hsplit, List.map_append, List.map_cons, List.nodup_middle, List.nodup_cons,
      ← List.map_append, List.mem_map] at hnodup
    have hothers : ∀ entry ∈ before ++ after, (entry.1 != m) = true := fun entry hmem =>
      bne_iff_ne.mpr fun heq => hnodup.1 ⟨entry, hmem, heq⟩
    rw [hlive, hsplit, List.filter_append, List.filter_cons_of_neg (by simp),
      ← List.filter_append, List.filter_eq_self.mpr hothers]

namespace Balanced

theorem empty (f : Forest) : Balanced {} f [] where
  perm := .nil
  nodup := List.nodup_nil
  lt_size _ hn := absurd hn List.not_mem_nil
  isSome_eq _ h := absurd h List.not_mem_nil
  records_eq := rfl

theorem mem_takenIn (h : a.Balanced f log) (hn : n ∈ a.live.map Prod.fst) : n ∈ takenIn log :=
  h.perm.mem_iff.mp (List.mem_append_left _ hn)

theorem nodup_append (h : a.Balanced f log) : (a.live.map Prod.fst ++ releasedIn log).Nodup :=
  h.perm.nodup_iff.mpr h.nodup

/-- Books stay balanced while the forest grows. -/
theorem extend (h : a.Balanced f log) (hgf : g.Extends f) : a.Balanced g log where
  perm := h.perm
  nodup := h.nodup
  lt_size n hn := Nat.lt_of_lt_of_le (h.lt_size n hn) hgf.size_le
  isSome_eq entry hentry := by
    rw [h.isSome_eq entry hentry, hgf.kind_eq]
    exact h.lt_size _ (h.mem_takenIn (List.mem_map_of_mem hentry))
  records_eq := h.records_eq

/-- **A new node with the record due to it leaves the books balanced.** -/
theorem insert {record : Option RecordId} (h : a.Balanced f log) (hfresh : n ∉ takenIn log)
    (hlt : n < f.size) (hrecord : record.isSome = (f.kind n).ownsRecord) :
    (a.insert n record).Balanced f (.taken n :: log) where
  perm := h.perm.cons n
  nodup := List.nodup_cons.mpr ⟨hfresh, h.nodup⟩
  lt_size := List.forall_mem_cons.mpr ⟨hlt, h.lt_size⟩
  isSome_eq := List.forall_mem_cons.mpr ⟨hrecord, h.isSome_eq⟩
  records_eq := by
    rw [Arena.insert, List.countP_cons, ← h.records_eq]
    split <;> rfl

/-- **A release leaves the books balanced.** -/
theorem release (h : a.Balanced f log) (hrelease : a.release g n = .ok a') :
    a'.Balanced f (.released n :: log) := by
  obtain ⟨before, record, after, hsplit, hlive, hrecords⟩ :=
    exists_of_release (h.nodup_append.sublist (List.sublist_append_left ..)) hrelease
  refine ⟨?_, h.nodup, h.lt_size, fun entry hentry => h.isSome_eq entry ?_, ?_⟩
  · refine List.Perm.trans ?_ h.perm
    rw [hlive, hsplit, List.map_append, List.map_append, List.map_cons, List.append_assoc,
      List.append_assoc, List.cons_append]
    exact List.Perm.append_left _ List.perm_middle
  · rw [hlive] at hentry
    rw [hsplit]
    exact (List.sublist_cons_self _ _).append_left before |>.subset hentry
  · rw [hrecords, h.records_eq, hsplit, hlive, List.countP_append, List.countP_append,
      List.countP_cons]
    split <;> rfl

/-- Releases one after the other leave the books balanced. -/
theorem releases (hreleases : Releases g ns a a') (h : a.Balanced f log) :
    a'.Balanced f (ns.reverse.map Handover.released ++ log) := by
  induction hreleases generalizing log with
  | nil => exact h
  | cons first _ ih =>
    rw [List.reverse_cons, List.map_append, List.append_assoc]
    exact ih (h.release first)

/-- Mints leave the books balanced. -/
theorem mints {w w' : Workshop} (hmints : w.Mints ns w') (h : w.arena.Balanced w.forest log) :
    w'.arena.Balanced w'.forest (ns.map Handover.taken ++ log) := by
  induction hmints with
  | start => exact h
  | @mark ns w' _ n module ih => exact ih.extend (.setModule w'.forest n module)
  | @mint ns w' _ shape ih =>
    obtain ⟨record, hinsert, hrecord⟩ := w'.exists_arena_mint shape
    rw [hinsert, Workshop.forest_mint]
    refine (ih.extend (.add w'.forest shape)).insert
      (fun hmem => Nat.lt_irrefl _ (ih.lt_size _ hmem)) ?_ ?_
    · rw [size_add]
      exact Nat.lt_succ_self _
    · rw [hrecord, kind_add, if_pos rfl]

/-! ### What the books say -/

theorem owns_iff (h : a.Balanced f log) :
    a.owns n = true ↔ n ∈ takenIn log ∧ n ∉ releasedIn log := by
  have hdisjoint := List.disjoint_of_nodup_append h.nodup_append
  rw [Arena.owns_iff, ← h.perm.mem_iff, List.mem_append]
  exact ⟨fun hn => ⟨.inl hn, fun hreleased => hdisjoint hn hreleased⟩,
    fun ⟨hn, hreleased⟩ => hn.resolve_right hreleased⟩

theorem size_add_length (h : a.Balanced f log) :
    a.size + (releasedIn log).length = (takenIn log).length := by
  rw [← h.perm.length_eq, List.length_append, List.length_map, size]

theorem nodup_releasedIn (h : a.Balanced f log) : (releasedIn log).Nodup :=
  h.nodup_append.sublist (List.sublist_append_right ..)

theorem records_eq_countP (h : a.Balanced f log) :
    a.records = (a.live.map Prod.fst).countP fun n => (f.kind n).ownsRecord := by
  rw [h.records_eq, List.countP_map]
  refine List.countP_congr fun entry hentry => ?_
  rw [h.isSome_eq entry hentry, Function.comp_apply]

end Balanced

end Arena

/-! ## All that can be done -/

/-- All nodes and records, with any number of arenas and of symbol tables. -/
structure Yard where
  store : Store := {}
  arenas : Nat → Arena := fun _ => {}
  tables : Nat → SymbolTable := fun _ => {}

/-- One thing to do in a yard. -/
inductive Deed where
  | construct (arena : Nat) (c : Construct)
  | append (head : Option NodeId) (n : NodeId)
  | link (ns : List NodeId)
  /-- Changes the records, or which of them are attached to which nodes, in any way: notes written
  in place, records put in the place of others, providers found. -/
  | rewrite (change : Ledger → Ledger)
  | attach (table : Nat) (script : NodeId)
  | free (arena : Nat) (root : NodeId)

namespace Yard

/-- The workshop of an arena. -/
def workshop (y : Yard) (arena : Nat) : Workshop := { y.store with arena := y.arenas arena }

/-- The yard with another forest. -/
def withForest (y : Yard) (forest : Forest) : Yard := { y with store := { y.store with forest } }

/-- The yard with another ledger. -/
def withLedger (y : Yard) (ledger : Ledger) : Yard := { y with store := { y.store with ledger } }

/-- Does one thing.  What meets a fault is left as far as it has come. -/
def act (y : Yard) : Deed → Yard
  | .construct i c =>
    let w := ((y.workshop i).step (.construct c)).2
    { y with store := w.toStore, arenas := Function.update y.arenas i w.arena }
  | .append head n =>
    match y.store.forest.append head n with
    | .ok (_, forest) => y.withForest forest
    | .error _ => y
  | .link ns => y.withForest (y.store.forest.link ns).2
  | .rewrite change => y.withLedger (change y.store.ledger)
  | .attach i script =>
    let s := (Attachment.run y.store.forest script ⟨y.tables i, y.store.ledger, 0⟩).2
    { y.withLedger s.ledger with tables := Function.update y.tables i s.symbols }
  | .free i root =>
    { y with arenas := Function.update y.arenas i ((y.arenas i).free y.store.forest root).2 }

/-- The handovers of an arena in one deed, the latest first. -/
def handovers (y : Yard) (i : Nat) : Deed → List Handover
  | .construct j c => if i = j then (Step.construct c).handovers (y.workshop j) else []
  | .free j root =>
    if i = j then ((y.arenas j).freed y.store.forest root).reverse.map Handover.released else []
  | .append _ _ | .link _ | .rewrite _ | .attach _ _ => []

/-- A yard with the logs of its arenas after some deeds. -/
def run : List Deed → Yard → (Nat → List Handover) → Yard × (Nat → List Handover)
  | [], y, logs => (y, logs)
  | deed :: deeds, y, logs => run deeds (y.act deed) fun i => y.handovers i deed ++ logs i

variable {y : Yard} {logs : Nat → List Handover}

/-- The books of all arenas balance with their logs. -/
def Balanced (y : Yard) (logs : Nat → List Handover) : Prop :=
  ∀ i, (y.arenas i).Balanced y.store.forest (logs i)

/-- What changes hands in one arena is logged for it alone. -/
theorem balanced_update (h : y.Balanced logs) {g : Forest} (hg : g.Extends y.store.forest)
    {j : Nat} {a : Arena} {log : List Handover} (ha : a.Balanced g (log ++ logs j)) (i : Nat) :
    (Function.update y.arenas j a i).Balanced g ((if i = j then log else []) ++ logs i) := by
  by_cases hij : i = j
  · subst hij
    rw [Function.update_self, if_pos rfl]
    exact ha
  · rw [Function.update_of_ne hij, if_neg hij]
    exact (h i).extend hg

/-- **No deed upsets the books**, whether or not it meets a fault. -/
theorem balanced_act (h : y.Balanced logs) (deed : Deed) :
    (y.act deed).Balanced fun i => y.handovers i deed ++ logs i := by
  intro i
  change ((y.act deed).arenas i).Balanced (y.act deed).store.forest (y.handovers i deed ++ logs i)
  cases deed with
  | construct j c =>
    rw [act, handovers, Step.handovers, Step.receipts, Workshop.step]
    cases hw : (y.workshop j).construct c with
    | error fault => exact balanced_update h (.refl _) (h j) i
    | ok built =>
      have hmints := Workshop.mints_of_construct hw
      exact balanced_update h hmints.extends (.mints hmints (h j)) i
  | append head n =>
    rw [act]
    split
    · rename_i hforest
      exact (h i).extend (.append hforest)
    · exact h i
  | link ns => exact (h i).extend (.linkFrom ns y.store.forest none)
  | rewrite change => exact h i
  | attach table script => exact h i
  | free j root =>
    exact balanced_update h (.refl _) (.releases (Arena.releases_freed ..) (h j)) i

theorem balanced_run (h : y.Balanced logs) (deeds : List Deed) :
    (run deeds y logs).1.Balanced (run deeds y logs).2 := by
  induction deeds generalizing y logs with
  | nil => exact h
  | cons deed deeds ih => exact ih (balanced_act h deed)

/-- **After any deeds, an arena owns the nodes built in it that it has not released**, and both make
up the number built.  None is released twice, and the records counted are those of the nodes owned
that are neither maps nor variables, whatever has been attached to them since. -/
theorem accounts (deeds : List Deed) (i : Nat) :
    let (y, logs) := run deeds {} fun _ => []
    (∀ n, (y.arenas i).owns n = true ↔ n ∈ takenIn (logs i) ∧ n ∉ releasedIn (logs i)) ∧
    (y.arenas i).size + (releasedIn (logs i)).length = (takenIn (logs i)).length ∧
    (takenIn (logs i)).Nodup ∧ (releasedIn (logs i)).Nodup ∧
    (y.arenas i).records = ((y.arenas i).live.map Prod.fst).countP fun n =>
      y.store.forest.kind n ≠ .map ∧ y.store.forest.kind n ≠ .var := by
  have hempty : Balanced {} fun _ => [] := fun _ => .empty _
  have h := balanced_run hempty deeds i
  refine ⟨fun n => h.owns_iff, h.size_add_length, h.nodup, h.nodup_releasedIn, ?_⟩
  rw [h.records_eq_countP]
  refine List.countP_congr fun n _ => ?_
  cases (run deeds {} fun _ => []).1.store.forest.kind n <;> decide

/-- An operand used twice is released once, with its key and the string in that; the node over it
stays. -/
example : (run [.construct 0 (.map "hits" none), .construct 0 (.binop 2 .add 2), .attach 0 3,
    .free 0 3] {} fun _ => []).2 0
      = [.released 2, .released 1, .released 0, .taken 3, .taken 2, .taken 1, .taken 0] := by
  decide +kernel

end Yard

end ProbeScript
