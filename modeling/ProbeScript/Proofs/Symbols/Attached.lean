import ProbeScript.Proofs.Forest.Subtree
import ProbeScript.Proofs.Symbols.Aliased

/-!
# Proofs/Symbols/Attached — names in the order of their first use

To attach symbols is to go through the nodes in the order in which they are entered, one at a time
(`Attachment.run_eq_foldl`).  `Attached` says what comes of any such list of nodes: the names that
are new are numbered in the order in which they first occur, and nodes that name a symbol have its
record.  With no name new nothing happens, which is why a second time changes nothing
(`attach_in_order_of_first_use`).
-/

namespace ProbeScript

open Forest

variable {f : Forest} {root n : NodeId} {name : String} {names : List String} {r : RecordId}

/-- The names of the maps and variables visited below a node, one for each visit. -/
def Forest.namesMet (f : Forest) (n : NodeId) : List String := (f.preorder n).filterMap f.symbol?

/-! ## New names -/

namespace SymbolTable

variable {t : SymbolTable}

/-- Those of several names that a table does not have, in the order in which they first occur. -/
def newAmong (t : SymbolTable) (names : List String) : List String :=
  (names.removeAll t.names).eraseDups

theorem get?_eq_none_iff : t.get? name = none ↔ name ∉ t.names := by
  rw [get?, Option.map_eq_none_iff, List.find?_eq_none, names, List.mem_map, not_exists]
  exact forall_congr' fun entry => by simp

theorem mem_names_of_get? (h : t.get? name = some r) : name ∈ t.names := by
  by_contra hnone
  rw [get?_eq_none_iff.mpr hnone] at h
  cases h

@[simp] theorem newAmong_nil (t : SymbolTable) : t.newAmong [] = [] := rfl

theorem newAmong_cons_of_mem (h : name ∈ t.names) :
    t.newAmong (name :: names) = t.newAmong names := by
  rw [newAmong, List.cons_removeAll, if_neg (by simpa using h), newAmong]

/-- A new name comes first, and from then on it is not new any more. -/
theorem newAmong_cons_of_notMem (h : name ∉ t.names) (r : RecordId) :
    t.newAmong (name :: names)
      = name :: (⟨t.entries ++ [(name, r)]⟩ : SymbolTable).newAmong names := by
  rw [newAmong, List.cons_removeAll, if_pos (by simpa using h), List.eraseDups_cons, newAmong,
    List.removeAll, List.filter_filter, List.removeAll]
  refine congrArg (fun new => name :: List.eraseDups new) (List.filter_congr fun other _ => ?_)
  rw [Bool.eq_iff_iff]
  simp [SymbolTable.names, and_comm]

theorem mem_newAmong : name ∈ t.newAmong names ↔ name ∈ names ∧ name ∉ t.names := by
  simp [newAmong, List.removeAll]

theorem nodup_newAmong (t : SymbolTable) (names : List String) : (t.newAmong names).Nodup := by
  induction names generalizing t with
  | nil => exact List.nodup_nil
  | cons name names ih =>
    by_cases hname : name ∈ t.names
    · rw [newAmong_cons_of_mem hname]
      exact ih t
    · rw [newAmong_cons_of_notMem hname 0]
      refine List.nodup_cons.mpr ⟨fun hmem => (mem_newAmong.mp hmem).2 ?_, ih _⟩
      simp [SymbolTable.names]

theorem newAmong_eq_nil (h : ∀ name ∈ names, name ∈ t.names) : t.newAmong names = [] :=
  List.eq_nil_iff_forall_not_mem.mpr fun name hname =>
    (mem_newAmong.mp hname).2 (h name (mem_newAmong.mp hname).1)

end SymbolTable

/-! ## One node after the other -/

namespace Attachment

variable {s s' : Attachment} {ns : List NodeId}

/-- What a visit makes of a table and a ledger. -/
def enter (f : Forest) (s : Attachment) (n : NodeId) : Attachment :=
  ((f.symbol? n).map (s.attach n)).getD s

theorem run_eq_foldl (h : f.Grounded root) (s : Attachment) :
    run f root s = (.ok (), (f.preorder root).foldl (enter f) s) := by
  have hvisit : ∀ n s, visit f n s = (.ok 0, enter f s n) := fun _ _ => rfl
  rw [run, h.walk_some_none, Visitor.runEach_eq_foldl hvisit]
  rfl

theorem enter_of_none (hn : f.symbol? n = none) : enter f s n = s := by
  rw [enter, hn]
  rfl

/-- A node that names a symbol met before gets the record of that name. -/
theorem enter_of_mem (hn : f.symbol? n = some name) (hr : s.symbols.get? name = some r) :
    enter f s n = ⟨s.symbols, s.ledger.attach n r, s.count + 1⟩ := by
  rw [enter, hn, Option.map_some, Option.getD_some, attach, s.symbols.recordFor_of_some _ hr]

/-- A node that names a new symbol gets a new record, which goes into the table. -/
theorem enter_of_new (hn : f.symbol? n = some name) (hname : s.symbols.get? name = none) :
    enter f s n = ⟨⟨s.symbols.entries ++ [(name, s.ledger.records.size)]⟩,
      (s.ledger.create {}).2.attach n s.ledger.records.size, s.count + 1⟩ := by
  rw [enter, hn, Option.map_some, Option.getD_some, attach, s.symbols.recordFor_of_none _ hname]

/-- The symbol a node names has a record once the node is entered, and the node has that record. -/
theorem get?_enter (hn : f.symbol? n = some name) :
    (enter f s n).symbols.get? name = some (s.symbols.recordFor s.ledger name).1 := by
  rw [enter, hn]
  exact (s.symbols.get?_recordFor s.ledger name name).trans (if_pos rfl)

theorem recordOf?_enter (hn : f.symbol? n = some name) (m : NodeId) :
    (enter f s n).ledger.recordOf? m
      = if m = n then some (s.symbols.recordFor s.ledger name).1 else s.ledger.recordOf? m := by
  rcases hname : s.symbols.get? name with _ | r
  · rw [enter_of_new hn hname, s.symbols.recordFor_of_none _ hname, Ledger.recordOf?_attach,
      Ledger.recordOf?_create]
  · rw [enter_of_mem hn hname, s.symbols.recordFor_of_some _ hname, Ledger.recordOf?_attach]

/-- What may come of entering nodes one after the other. -/
structure Attached (f : Forest) (ns : List NodeId) (s s' : Attachment) : Prop where
  /-- New names are numbered as records are made. -/
  entries : s'.symbols.entries = s.symbols.entries
    ++ (s.symbols.newAmong (ns.filterMap f.symbol?)).zipIdx s.ledger.records.size
  records : s'.ledger.records.toList = s.ledger.records.toList
    ++ List.replicate (s.symbols.newAmong (ns.filterMap f.symbol?)).length ({} : Record)
  recordOf?_of_mem : ∀ {n name}, n ∈ ns → f.symbol? n = some name →
    s'.ledger.recordOf? n = s'.symbols.get? name
  recordOf?_eq : ∀ {n}, n ∉ ns ∨ f.symbol? n = none →
    s'.ledger.recordOf? n = s.ledger.recordOf? n
  count : s'.count = s.count + (ns.filterMap f.symbol?).length

namespace Attached

theorem get?_eq (h : Attached f ns s s') : s'.symbols.get? name = (s.symbols.get? name).or
    ((((s.symbols.newAmong (ns.filterMap f.symbol?)).zipIdx s.ledger.records.size).find?
      fun entry => entry.1 == name).map Prod.snd) := by
  rw [SymbolTable.get?, h.entries, List.find?_append, Option.map_or, SymbolTable.get?]

/-- Names keep their records. -/
theorem get?_of_some (h : Attached f ns s s') (hr : s.symbols.get? name = some r) :
    s'.symbols.get? name = some r := by
  rw [h.get?_eq, hr, Option.some_or]

theorem names_eq (h : Attached f ns s s') :
    s'.symbols.names = s.symbols.names ++ s.symbols.newAmong (ns.filterMap f.symbol?) := by
  rw [SymbolTable.names, h.entries, List.map_append, List.zipIdx_map_fst, SymbolTable.names]

theorem record_eq (h : Attached f ns s s') (r : RecordId) :
    s'.ledger.record r = s.ledger.record r := by
  simp only [Ledger.record, Array.getD_eq_getD_getElem?, ← Array.getElem?_toList, h.records]
  rw [List.getElem?_append]
  split
  · rfl
  · rename_i hr
    rw [List.getElem?_replicate, List.getElem?_eq_none (Nat.le_of_not_lt hr)]
    split <;> rfl

/-- The records of new names are new. -/
theorem new_record (h : Attached f ns s s') (hname : s.symbols.get? name = none)
    (hr : s'.symbols.get? name = some r) :
    s.ledger.records.size ≤ r ∧ r < s'.ledger.records.size := by
  rw [h.get?_eq, hname, Option.none_or, Option.map_eq_some_iff] at hr
  obtain ⟨entry, hentry, rfl⟩ := hr
  have hmem := List.mem_of_find?_eq_some hentry
  have hsize := congrArg List.length h.records
  rw [Array.length_toList, List.length_append, Array.length_toList, List.length_replicate] at hsize
  rw [hsize]
  exact ⟨List.le_snd_of_mem_zipIdx hmem, List.snd_lt_add_of_mem_zipIdx hmem⟩

/-- The symbol a node entered names has a record. -/
theorem exists_record (h : Attached f ns s s') (hn : n ∈ ns) (hname : f.symbol? n = some name) :
    ∃ r, s'.symbols.get? name = some r := by
  by_contra hnone
  have hnot := SymbolTable.get?_eq_none_iff.mp
    (Option.eq_none_iff_forall_ne_some.mpr (not_exists.mp hnone))
  rw [h.names_eq, List.mem_append, SymbolTable.mem_newAmong, not_or] at hnot
  exact hnot.2 ⟨List.mem_filterMap.mpr ⟨n, hn, hname⟩, hnot.1⟩

/-- Only nodes entered that name a symbol are given a record. -/
theorem cons_recordOf? {s₁ : Attachment} (hfirst : s₁ = enter f s n) (h : Attached f ns s₁ s') :
    (∀ {m name}, m ∈ n :: ns → f.symbol? m = some name →
      s'.ledger.recordOf? m = s'.symbols.get? name) ∧
    ∀ {m}, m ∉ n :: ns ∨ f.symbol? m = none →
      s'.ledger.recordOf? m = s.ledger.recordOf? m := by
  subst hfirst
  have hother : ∀ m, m ≠ n ∨ f.symbol? m = none →
      (enter f s n).ledger.recordOf? m = s.ledger.recordOf? m := fun m hm => by
    rcases hn : f.symbol? n with _ | name
    · rw [enter_of_none hn]
    · rw [recordOf?_enter hn, if_neg]
      rintro rfl
      simp [hn] at hm
  refine ⟨fun {m name} hm hname => ?_, fun {m} hm => ?_⟩
  · by_cases hmem : m ∈ ns
    · exact h.recordOf?_of_mem hmem hname
    · obtain rfl := (List.mem_cons.mp hm).resolve_right hmem
      have hr := get?_enter (s := s) hname
      rw [h.recordOf?_eq (.inl hmem), recordOf?_enter hname, if_pos rfl, h.get?_of_some hr]
  · rw [h.recordOf?_eq (hm.imp_left (mt (List.mem_cons_of_mem n)))]
    exact hother m (hm.imp_left fun hmem hmn => hmem (hmn ▸ List.mem_cons_self))

/-- **One more node may be entered first.** -/
theorem cons {s₁ : Attachment} (hfirst : s₁ = enter f s n) (h : Attached f ns s₁ s') :
    Attached f (n :: ns) s s' := by
  obtain ⟨hmem, hother⟩ := h.cons_recordOf? hfirst
  suffices hbooks : s'.symbols.entries = s.symbols.entries
        ++ (s.symbols.newAmong ((n :: ns).filterMap f.symbol?)).zipIdx s.ledger.records.size ∧
      s'.ledger.records.toList = s.ledger.records.toList
        ++ List.replicate (s.symbols.newAmong ((n :: ns).filterMap f.symbol?)).length
          ({} : Record) ∧
      s'.count = s.count + ((n :: ns).filterMap f.symbol?).length from
    ⟨hbooks.1, hbooks.2.1, hmem, hother, hbooks.2.2⟩
  rcases hn : f.symbol? n with _ | name
  · rw [enter_of_none hn] at hfirst
    rw [List.filterMap_cons_none hn]
    exact hfirst ▸ ⟨h.entries, h.records, h.count⟩
  · have hcount : s.count + 1 + (ns.filterMap f.symbol?).length
        = s.count + (name :: ns.filterMap f.symbol?).length := by
      rw [List.length_cons, Nat.add_assoc, Nat.add_comm 1]
    rw [List.filterMap_cons_some hn]
    rcases hname : s.symbols.get? name with _ | r
    · -- A new name takes the next number, and those after it start from there.
      rw [enter_of_new hn hname] at hfirst
      rw [SymbolTable.newAmong_cons_of_notMem (SymbolTable.get?_eq_none_iff.mp hname)
        s.ledger.records.size, List.zipIdx_cons, List.length_cons, List.replicate_succ]
      subst hfirst
      refine ⟨?_, ?_, h.count.trans hcount⟩
      · rw [h.entries, List.append_assoc, Ledger.size_attach, Ledger.size_create]
        rfl
      · have hpush := @Array.toList_push Record s.ledger.records {}
        exact h.records.trans ((congrArg (· ++ List.replicate _ _) hpush).trans
          (List.append_assoc ..))
    · rw [enter_of_mem hn hname] at hfirst
      rw [SymbolTable.newAmong_cons_of_mem (SymbolTable.mem_names_of_get? hname)]
      subst hfirst
      exact ⟨h.entries, h.records, h.count.trans hcount⟩

end Attached

/-- **What comes of entering nodes one after the other.** -/
theorem attached_foldl (f : Forest) (ns : List NodeId) (s : Attachment) :
    Attached f ns s (ns.foldl (enter f) s) := by
  induction ns generalizing s with
  | nil => exact ⟨by simp, by simp, fun hn => absurd hn List.not_mem_nil, fun _ => rfl, rfl⟩
  | cons n ns ih => exact .cons rfl (ih _)

/-- **Nodes that have been entered can be entered again to no effect**, whatever has been written to
the records in between: no name is new any more. -/
theorem Attached.again (h : Attached f ns s s') (writes : List (RecordId × (Record → Record))) :
    ∃ l, ns.foldl (enter f) ⟨s'.symbols, s'.ledger.rewrite writes, s.count⟩
        = ⟨s'.symbols, l, s'.count⟩ ∧
      l.records = (s'.ledger.rewrite writes).records ∧
      ∀ n, l.recordOf? n = (s'.ledger.rewrite writes).recordOf? n := by
  have hsecond := attached_foldl f ns ⟨s'.symbols, s'.ledger.rewrite writes, s.count⟩
  generalize ns.foldl (enter f) _ = t at hsecond
  obtain ⟨⟨entries⟩, l, count⟩ := t
  have hnone : s'.symbols.newAmong (ns.filterMap f.symbol?) = [] :=
    SymbolTable.newAmong_eq_nil fun name hname => by
      rw [h.names_eq, List.mem_append, SymbolTable.mem_newAmong]
      exact (em (name ∈ s.symbols.names)).imp_right fun hnew => ⟨hname, hnew⟩
  obtain ⟨hentries, hrecords, hmem, hother, hcount⟩ := hsecond
  rw [hnone] at hentries hrecords
  obtain rfl : entries = s'.symbols.entries := hentries.trans (List.append_nil _)
  obtain rfl : count = s'.count := hcount.trans h.count.symm
  refine ⟨l, rfl, Array.toList_inj.mp (hrecords.trans (List.append_nil _)), fun n => ?_⟩
  by_cases hn : n ∉ ns ∨ f.symbol? n = none
  · exact hother hn
  · obtain ⟨hn, hsymbol⟩ := not_or.mp hn
    obtain ⟨name, hname⟩ := Option.ne_none_iff_exists'.mp hsymbol
    rw [hmem (not_not.mp hn) hname, Ledger.recordOf?_rewrite]
    exact (h.recordOf?_of_mem (not_not.mp hn) hname).symm

end Attachment

/-! ## All nodes below a root -/

/-- The name of a map comes right before those in its key. -/
theorem Forest.Grounded.namesMet_infix_of_map {key : NodeId} (h : f.Grounded root)
    (hn : n ∈ f.preorder root) (hshape : f.shape n = .map name key) :
    name :: f.namesMet key <:+: f.namesMet root := by
  have hkey : f.children n = [key] := by
    rw [children, hshape]
    rfl
  have hname : f.symbol? n = some name := by
    rw [symbol?, hshape]
    rfl
  have hmet : f.namesMet n = name :: f.namesMet key := by
    rw [namesMet, (h.of_mem hn).preorder_eq, List.filterMap_cons_some hname, hkey,
      List.flatMap_singleton, namesMet]
  rw [← hmet]
  exact (h.preorder_infix hn).filterMap _

/-- **Attaching symbols puts the names of maps and variables into the table in the order of their
first visit**, after those it has.  Every node visited that names a symbol ends up with the record
the table has for that name, which is the old one for an old name and an undecided one for a new
name; no other node and no record is touched.  The visits to maps and variables are counted.  A
second time the count is the same and nothing changes, even after changes to records in place. -/
theorem attach_in_order_of_first_use (h : f.Grounded root) (t : SymbolTable) (l : Ledger) :
    ∃ t' l', Attachment.run f root ⟨t, l, 0⟩ = (.ok (), ⟨t', l', (f.namesMet root).length⟩) ∧
      t'.names = t.names ++ t.newAmong (f.namesMet root) ∧
      t'.entries = t.entries ++ (t.newAmong (f.namesMet root)).zipIdx l.records.size ∧
      (t.names.Nodup → t'.names.Nodup) ∧
      (∀ n ∈ f.preorder root, ∀ name key, f.shape n = .map name key →
        name :: f.namesMet key <:+: f.namesMet root) ∧
      (∀ n ∈ f.preorder root, ∀ name, f.symbol? n = some name →
        ∃ r, t'.get? name = some r ∧ l'.recordOf? n = some r ∧
          (t.get? name = none → l.records.size ≤ r ∧ r < l'.records.size ∧ l'.record r = {})) ∧
      (∀ n, n ∉ f.preorder root ∨ f.symbol? n = none → l'.recordOf? n = l.recordOf? n) ∧
      (∀ name r, t.get? name = some r → t'.get? name = some r) ∧
      (∀ r, l'.record r = l.record r) ∧
      ∀ writes, ∃ l'',
        Attachment.run f root ⟨t', l'.rewrite writes, 0⟩
          = (.ok (), ⟨t', l'', (f.namesMet root).length⟩) ∧
        l''.records = (l'.rewrite writes).records ∧
        ∀ n, l''.recordOf? n = (l'.rewrite writes).recordOf? n := by
  have hattached := Attachment.attached_foldl f (f.preorder root) ⟨t, l, 0⟩
  have hrun := Attachment.run_eq_foldl h ⟨t, l, 0⟩
  generalize (f.preorder root).foldl (Attachment.enter f) ⟨t, l, 0⟩ = s' at hattached hrun
  obtain ⟨t', l', count⟩ := s'
  obtain rfl : count = (f.namesMet root).length := hattached.count.trans (Nat.zero_add _)
  refine ⟨t', l', hrun, hattached.names_eq, hattached.entries, fun hnodup => ?_,
    fun n hn name key => h.namesMet_infix_of_map hn, fun n hn name hname => ?_,
    fun n => hattached.recordOf?_eq, fun name r => hattached.get?_of_some, hattached.record_eq,
    fun writes => ?_⟩
  · rw [hattached.names_eq, List.nodup_append']
    exact ⟨hnodup, t.nodup_newAmong _, fun name hold hnew =>
      (SymbolTable.mem_newAmong.mp hnew).2 hold⟩
  · obtain ⟨r, hr⟩ := hattached.exists_record hn hname
    refine ⟨r, hr, (hattached.recordOf?_of_mem hn hname).trans hr, fun hnew => ?_⟩
    obtain ⟨hle, hlt⟩ := hattached.new_record hnew hr
    exact ⟨hle, hlt, (hattached.record_eq r).trans (Ledger.record_of_size_le hle)⟩
  · rw [Attachment.run_eq_foldl h]
    obtain ⟨l'', hagain, hl''⟩ := hattached.again writes
    exact ⟨l'', congrArg (Prod.mk _) hagain, hl''⟩

/-- Two sums over a map, its key, and a variable.  The key is used once more as a variable. -/
def keyed : Forest :=
  (((((({} : Forest).add (.var "k")).2.add (.map "m" 0)).2.add (.var "old")).2.add
    (.binop .add 1 2)).2.add (.binop .add 3 0)).2

/-- The map comes before its key, the old name stays in front, and the key is counted twice. -/
theorem attach_in_order_of_first_use_keyed :
    keyed.Grounded 4 ∧
      ∃ t l, Attachment.run keyed 4 ⟨⟨[("old", 0)]⟩, (({} : Ledger).create {}).2, 0⟩
          = (.ok (), ⟨t, l, 4⟩) ∧
        t.names = ["old", "m", "k"] ∧ l.recordOf? 0 = some 2 ∧ l.recordOf? 1 = some 1 ∧
        l.recordOf? 2 = some 0 ∧ l.recordOf? 3 = none := by
  have hground : keyed.Grounded 4 := by decide +kernel
  have hmet : keyed.namesMet 4 = ["m", "k", "old", "k"] := by decide +kernel
  obtain ⟨t, l, hrun, hnames, hentries, -, -, hnode, hother, -⟩ :=
    attach_in_order_of_first_use hground ⟨[("old", 0)]⟩ (({} : Ledger).create {}).2
  rw [hmet] at hrun hnames hentries
  have hpreorder : keyed.preorder 4 = [4, 3, 1, 0, 2, 0] := by decide +kernel
  rw [hpreorder] at hnode
  obtain rfl : t = ⟨[("old", 0), ("m", 1), ("k", 2)]⟩ := congrArg SymbolTable.mk hentries
  have hrecord : ∀ n name, n ∈ [4, 3, 1, 0, 2, 0] → keyed.symbol? n = some name →
      l.recordOf? n = SymbolTable.get? ⟨[("old", 0), ("m", 1), ("k", 2)]⟩ name :=
    fun n name hn hname => by
      obtain ⟨r, hr, hl, -⟩ := hnode n hn name hname
      rw [hl, hr]
  exact ⟨hground, _, l, hrun, rfl, hrecord 0 "k" (by decide) (by decide), hrecord 1 "m" (by decide)
    (by decide), hrecord 2 "old" (by decide) (by decide), hother 3 (.inr (by decide))⟩

end ProbeScript
