import ProbeScript.Proofs.Arena.Accounting

/-!
# Proofs/Arena/Emptied — what freeing takes from an arena

An arena is what nodes have been given to it and taken from it, whatever trees they are in
(`Arena.after`); its books balance in any case (`exists_balanced_after`).  Freeing takes the nodes
of a tree in the order in which they are left, children first (`Grounded.childrenFirst_postorder`).
It takes all of them or those before the first that the arena does not own, or no longer owns, and
the counts go down by just these (`free_takes_postorder`).
-/

namespace ProbeScript

open Forest

variable {f : Forest} {root n : NodeId} {ns ms : List NodeId}

/-! ## Children first -/

namespace Forest

/-- A list in which every node comes after all nodes right below it. -/
def ChildrenFirst (f : Forest) (ns : List NodeId) : Prop :=
  ∀ before n after, ns = before ++ n :: after → ∀ c ∈ f.children n, c ∈ before

theorem ChildrenFirst.append (h : f.ChildrenFirst ns) (h' : f.ChildrenFirst ms) :
    f.ChildrenFirst (ns ++ ms) := by
  intro before n after hsplit c hc
  rcases List.append_eq_append_iff.mp hsplit with ⟨others, rfl, hms⟩ | ⟨others, rfl, hafter⟩
  · exact List.mem_append_right ns (h' others n after hms c hc)
  · cases others with
    | nil => exact absurd (h' [] n after hafter.symm c hc) List.not_mem_nil
    | cons m others =>
      obtain ⟨rfl, -⟩ := List.cons.inj hafter
      exact h before _ others rfl c hc

theorem ChildrenFirst.concat (h : f.ChildrenFirst ns) (hn : f.children n ⊆ ns) :
    f.ChildrenFirst (ns ++ [n]) := by
  intro before m after hsplit c hc
  rcases List.eq_nil_or_concat after with rfl | ⟨after, last, rfl⟩
  · obtain ⟨rfl, hnm⟩ := List.append_inj' hsplit rfl
    exact hn (List.head_eq_of_cons_eq hnm ▸ hc)
  · rw [List.concat_eq_append, ← List.cons_append, ← List.append_assoc] at hsplit
    exact h before m after (List.append_inj' hsplit rfl).1 c hc

theorem Grounded.mem_postorder (h : f.Grounded n) : n ∈ f.postorder n := by
  rw [h.postorder_eq]
  exact List.mem_append_right _ List.mem_cons_self

/-- **Nodes are left after those right below them.** -/
theorem Grounded.childrenFirst_postorder (h : f.Grounded n) : f.ChildrenFirst (f.postorder n) := by
  induction h with
  | @intro n children ih =>
    have hinner : ∀ cs ⊆ f.children n, f.ChildrenFirst (cs.flatMap f.postorder) := by
      intro cs hcs
      induction cs with
      | nil => exact fun before m after hsplit => by simp at hsplit
      | cons c cs ih' =>
        obtain ⟨hc, hcs⟩ := List.cons_subset.mp hcs
        exact (ih c hc).append (ih' hcs)
    rw [(Grounded.intro children).postorder_eq]
    exact (hinner _ (List.Subset.refl _)).concat fun c hc =>
      List.mem_flatMap.mpr ⟨c, hc, (children c hc).mem_postorder⟩

end Forest

/-! ## What logs say -/

section Logs

variable (log log' : List Handover) (ns : List NodeId)

@[simp] theorem takenIn_append : takenIn (log ++ log') = takenIn log ++ takenIn log' :=
  List.filterMap_append

@[simp] theorem releasedIn_append :
    releasedIn (log ++ log') = releasedIn log ++ releasedIn log' :=
  List.filterMap_append

@[simp] theorem takenIn_map_taken : takenIn (ns.map Handover.taken) = ns := by
  rw [takenIn, List.filterMap_map]
  exact List.filterMap_some

@[simp] theorem takenIn_map_released : takenIn (ns.map Handover.released) = [] := by
  rw [takenIn, List.filterMap_map]
  exact List.filterMap_eq_nil_iff.mpr fun _ _ => rfl

@[simp] theorem releasedIn_map_taken : releasedIn (ns.map Handover.taken) = [] := by
  rw [releasedIn, List.filterMap_map]
  exact List.filterMap_eq_nil_iff.mpr fun _ _ => rfl

@[simp] theorem releasedIn_map_released : releasedIn (ns.map Handover.released) = ns := by
  rw [releasedIn, List.filterMap_map]
  exact List.filterMap_some

end Logs

/-! ## All arenas there are -/

/-- A node is given to an arena, with the record it has then, or taken from it. -/
inductive Transfer where
  | give (n : NodeId) (record : RecordId)
  | take (n : NodeId)
  deriving DecidableEq

namespace Transfer

/-- The node given or taken. -/
def node : Transfer → NodeId
  | give n _ => n
  | take n => n

/-- The arena after a transfer.  A fault leaves it as it was. -/
def apply (f : Forest) (a : Arena) : Transfer → Arena
  | give n record => (a.adopt f (({} : Ledger).attach n record) n).toOption.getD a
  | take n => (a.release f n).toOption.getD a

end Transfer

namespace Arena

variable {a b : Arena} {log : List Handover} {ts : List Transfer}

/-- The arena after transfers, from an empty one. -/
def after (f : Forest) (ts : List Transfer) : Arena := ts.foldl (Transfer.apply f) {}

/-- Books that balance also balance with what is owned for all that ever came. -/
theorem Balanced.restart (h : a.Balanced f log) :
    a.Balanced f ((a.live.map Prod.fst).map Handover.taken) where
  perm := by rw [takenIn_map_taken, releasedIn_map_taken, List.append_nil]
  nodup := by
    rw [takenIn_map_taken]
    exact h.nodup_append.sublist (List.sublist_append_left ..)
  lt_size n hn := h.lt_size n (h.mem_takenIn (by rwa [takenIn_map_taken] at hn))
  isSome_eq := h.isSome_eq
  records_eq := h.records_eq

/-- **No transfer upsets the books.** -/
theorem Balanced.exists_apply (h : a.Balanced f log) {t : Transfer} (ht : t.node < f.size) :
    ∃ log, (t.apply f a).Balanced f log := by
  cases t with
  | give n record =>
    rw [Transfer.apply, adopt]
    split
    · exact ⟨log, h⟩
    · rename_i howned
      refine ⟨_, h.restart.insert (fun hn => howned ?_) ht ?_⟩
      · rw [takenIn_map_taken] at hn
        exact Arena.owns_iff.mpr hn
      · cases (f.kind n).ownsRecord <;> simp [Ledger.recordOf?, Ledger.attach]
  | take n =>
    rw [Transfer.apply]
    cases hrelease : a.release f n with
    | ok b => exact ⟨_, h.release hrelease⟩
    | error fault => exact ⟨log, h⟩

/-- **The books of every arena balance.** -/
theorem exists_balanced_after (hts : ∀ t ∈ ts, t.node < f.size) :
    ∃ log, (after f ts).Balanced f log := by
  have hrun : ∀ (ts : List Transfer) (a : Arena), (∃ log, a.Balanced f log) →
      (∀ t ∈ ts, t.node < f.size) → ∃ log, (ts.foldl (Transfer.apply f) a).Balanced f log := by
    intro ts
    induction ts with
    | nil => exact fun _ h _ => h
    | cons t ts ih =>
      rintro a ⟨log, h⟩ hts
      obtain ⟨ht, hts⟩ := List.forall_mem_cons.mp hts
      exact ih _ (h.exists_apply ht) hts
  exact hrun ts {} ⟨[], .empty f⟩ hts

/-! ## What is taken -/

/-- Nodes are taken from an arena one after the other: they and no others are not owned any more,
and the counts go down by them and by those that have records of their own. -/
structure Loses (f : Forest) (ns : List NodeId) (a b : Arena) : Prop where
  releases : Releases f ns a b
  owns_iff : ∀ n, b.owns n = true ↔ a.owns n = true ∧ n ∉ ns
  size_add : b.size + ns.length = a.size
  records_add :
    b.records + ns.countP (fun n => f.kind n ≠ .map ∧ f.kind n ≠ .var) = a.records

theorem Releases.loses (hns : Releases f ns a b) (h : a.Balanced f log) : Loses f ns a b := by
  have hafter := h.releases hns
  refine ⟨hns, fun n => hns.owns_iff, ?_, ?_⟩
  · have hsize := h.size_add_length
    have hsize' := hafter.size_add_length
    simp only [takenIn_append, takenIn_map_released, List.nil_append, releasedIn_append,
      releasedIn_map_released, List.length_append, List.length_reverse] at hsize'
    omega
  · have hkind : ∀ ms : List NodeId, ms.countP (fun n => f.kind n ≠ .map ∧ f.kind n ≠ .var)
        = ms.countP fun n => (f.kind n).ownsRecord := fun ms =>
      List.countP_congr fun n _ => by cases f.kind n <;> decide
    have hcount := h.perm.countP_eq fun n => (f.kind n).ownsRecord
    have hcount' := hafter.perm.countP_eq fun n => (f.kind n).ownsRecord
    simp only [takenIn_append, takenIn_map_released, List.nil_append, releasedIn_append,
      releasedIn_map_released, List.countP_append, List.countP_reverse,
      ← hafter.records_eq_countP, ← h.records_eq_countP] at hcount hcount'
    rw [hkind]
    omega

/-- **A tree that has been freed is not freed again**, and the attempt changes nothing. -/
theorem exists_free_error (h : f.Grounded root) (hnone : ∀ n ∈ f.postorder root, b.owns n = false) :
    ∃ n ∈ f.postorder root, b.free f root = (.error (.notLive (f.kind n)), b) := by
  rcases b.free_outcome h with ⟨b', hall, -⟩ | ⟨before, n, after, b', hsplit, hsome, -, hfree⟩
  · have hroot := hall.owned root h.mem_postorder
    rw [hnone root h.mem_postorder] at hroot
    cases hroot
  · cases before with
    | nil =>
      cases hsome
      exact ⟨n, hsplit ▸ List.mem_cons_self, hfree⟩
    | cons m before =>
      have hm := hsome.owned m List.mem_cons_self
      rw [hnone m (hsplit ▸ List.mem_append_left _ List.mem_cons_self)] at hm
      cases hm

/-- Freeing comes to an answer just when no node is met twice and all are owned. -/
theorem free_eq_ok_iff (h : f.Grounded root) :
    (∃ released b, a.free f root = (.ok released, b)) ↔
      (f.postorder root).Nodup ∧ ∀ n ∈ f.postorder root, a.owns n = true := by
  have hperm := h.postorder_perm
  constructor
  · rintro ⟨released, b, hfree⟩
    rcases a.free_outcome h with ⟨b', hall, -⟩ | ⟨before, n, after, b', -, -, -, hfault⟩
    · exact ⟨hall.nodup, hall.owned⟩
    · rw [hfree] at hfault
      cases hfault
  · rintro ⟨hnodup, howned⟩
    obtain ⟨b, -, hfree⟩ := exists_free h (hperm.nodup_iff.mp hnodup) fun n hn =>
      howned n (hperm.mem_iff.mpr hn)
    exact ⟨_, b, hfree⟩

/-- **Freeing takes the nodes of a tree from an arena in the order in which they are left**, each
after those right below it.  It comes to an answer just when no node is met twice and the arena owns
all of them; the answer is then their number, all of them are taken, and to free the tree again is a
fault that changes nothing.  Otherwise it ends with a fault at the first node that the arena does
not own or that has been met before, and only the nodes before that one are taken.  Nodes, records,
symbol tables and other arenas are left alone. -/
theorem free_takes_postorder (h : f.Grounded root) (hts : ∀ t ∈ ts, t.node < f.size) :
    let a := after f ts
    let met := f.postorder root
    met = (f.children root).flatMap f.postorder ++ [root] ∧ f.ChildrenFirst met ∧
    ((∃ released b, a.free f root = (.ok released, b)) ↔
      met.Nodup ∧ ∀ n ∈ met, a.owns n = true) ∧
    (∀ released b, a.free f root = (.ok released, b) → released = met.length ∧ Loses f met a b ∧
      ∃ n ∈ met, b.free f root = (.error (.notLive (f.kind n)), b)) ∧
    (∀ fault b, a.free f root = (.error fault, b) → ∃ before n after,
      met = before ++ n :: after ∧ before.Nodup ∧ (∀ m ∈ before, a.owns m = true) ∧
        (a.owns n = false ∨ n ∈ before) ∧ fault = .notLive (f.kind n) ∧ Loses f before a b) ∧
    ∀ (y : Yard) (i : Nat), y.store.forest = f →
      (y.act (.free i root)).store = y.store ∧ (y.act (.free i root)).tables = y.tables ∧
        (y.act (.free i root)).arenas
          = Function.update y.arenas i ((y.arenas i).free f root).2 := by
  intro a met
  obtain ⟨log, hbalanced⟩ : ∃ log, a.Balanced f log := exists_balanced_after hts
  refine ⟨h.postorder_eq, h.childrenFirst_postorder, free_eq_ok_iff h, fun released b hfree => ?_,
    fun fault b hfree => ?_, fun y i hy => ⟨rfl, rfl, by rw [← hy]; rfl⟩⟩
  · rcases a.free_outcome h with ⟨b', hall, hok⟩ | ⟨before, n, after, b', -, -, -, hfault⟩
    · rw [hfree] at hok
      obtain ⟨hreleased, rfl⟩ := Prod.mk.inj hok
      have hlength : met.length = (f.preorder root).length := h.postorder_perm.length_eq
      refine ⟨(Except.ok.inj hreleased).trans hlength.symm, hall.loses hbalanced, ?_⟩
      refine exists_free_error h fun n hn => Bool.eq_false_iff.mpr fun howned => ?_
      exact (hall.owns_iff.mp howned).2 hn
    · rw [hfree] at hfault
      cases hfault
  · rcases a.free_outcome h with ⟨b', -, hok⟩ | ⟨before, n, after, b', hsplit, hsome, hn, hfault⟩
    · rw [hfree] at hok
      cases hok
    · obtain ⟨heq, rfl⟩ := Prod.mk.inj (hfree.symm.trans hfault)
      refine ⟨before, n, after, hsplit, hsome.nodup, hsome.owned, ?_, Except.error.inj heq,
        hsome.loses hbalanced⟩
      rw [← Bool.not_eq_true, hsome.owns_iff, not_and_not_right] at hn
      by_cases howned : a.owns n = true
      · exact .inr (hn howned)
      · exact .inl (Bool.eq_false_iff.mpr howned)

/-- A map used twice in one operation and once more in another. -/
def shared : Workshop :=
  [Step.construct (.map "hits" none), .construct (.binop 2 .add 2), .construct (.negation 2)].foldl
    (fun w step => (w.step step).2) {}

/-- The tree with the map in it once is freed with the key of the map and the string in that; the
other operation stays.  The tree with the map in it twice is freed up to where the string is met
again. -/
theorem free_takes_postorder_shared :
    let transfers := [Transfer.give 0 0, .give 1 1, .give 2 0, .give 3 2, .give 4 3]
    shared.forest.Grounded 4 ∧ (∀ t ∈ transfers, t.node < shared.forest.size) ∧
    shared.arena = after shared.forest transfers ∧
    (∃ b, shared.arena.free shared.forest 4 = (.ok 4, b) ∧ b.size = 1 ∧ b.records = 1 ∧
      ∃ fault, b.free shared.forest 4 = (.error fault, b)) ∧
    (shared.arena.free shared.forest 3).1 = .error (.notLive .str) ∧
    (shared.arena.free shared.forest 3).2.size = 2 := by
  intro transfers
  have hground : shared.forest.Grounded 4 := by decide
  have hts : ∀ t ∈ transfers, t.node < shared.forest.size := by decide
  have harena : shared.arena = after shared.forest transfers := by decide
  have hmet : shared.forest.postorder 4 = [0, 1, 2, 4] := by decide
  obtain ⟨-, -, hok, hall, -⟩ := free_takes_postorder hground hts
  rw [← harena, hmet] at hok hall
  obtain ⟨released, b, hfree⟩ := hok.mpr (by decide)
  obtain ⟨rfl, hloses, n, -, hagain⟩ := hall released b hfree
  have hsize : b.size + 4 = 5 := hloses.size_add
  have hrecords : b.records + 3 = 4 := hloses.records_add
  exact ⟨hground, hts, harena, ⟨b, hfree, by omega, by omega, _, hagain⟩, by decide, by decide⟩

end Arena

end ProbeScript
