import ProbeScript.Proofs.Forest.Grown

/-!
# Proofs/Forest/Appended — which nodes can be appended, and what becomes of successors

Where links lead to nodes in use, a node can be appended if and only if it is free and not on the
chain itself (`Linked.append_error_iff`), and nodes can be joined if and only if they are free and
none of them comes twice (`Linked.link_error_iff`).  Whether a node follows one in some other chain
is not asked.  Nodes that do so and are free are the open ends of chains; as long as no open end is
appended, no node comes to follow two (`Untangled.append`, `Untangled.link`).
-/

namespace ProbeScript.Forest

variable {f g : Forest} {n m first : NodeId} {head : Option NodeId} {ns : List NodeId}

/-- A node follows another in some chain. -/
def Follows (f : Forest) (n : NodeId) : Prop := ∃ m, f.next m = some n

/-- A node without parent and successor that follows another: the last one of a chain nothing was
built over. -/
def OpenEnd (f : Forest) (n : NodeId) : Prop := f.Free n ∧ f.Follows n

/-- No node is the successor of two nodes. -/
def Untangled (f : Forest) : Prop := ∀ m k n, f.next m = some n → f.next k = some n → m = k

theorem free_iff : f.Free n ↔ f.next n = none ∧ f.parent n = none :=
  ⟨fun h => ⟨h.next, h.parent⟩, fun h => ⟨h.1, h.2⟩⟩

instance (f : Forest) (n : NodeId) : Decidable (f.Free n) := decidable_of_iff' _ free_iff

/-- A node with a successor is in use, so there are finitely many to look at. -/
theorem follows_iff : f.Follows n ↔ ∃ m < f.size, f.next m = some n := by
  refine ⟨fun ⟨m, hm⟩ => ⟨m, ?_, hm⟩, fun ⟨m, _, hm⟩ => ⟨m, hm⟩⟩
  by_contra hge
  rw [next, f.node_eq_default (Nat.le_of_not_lt hge)] at hm
  cases hm

instance (f : Forest) (n : NodeId) : Decidable (f.Follows n) := decidable_of_iff' _ follows_iff

instance (f : Forest) (n : NodeId) : Decidable (f.OpenEnd n) :=
  inferInstanceAs (Decidable (f.Free n ∧ f.Follows n))

theorem not_free_iff : ¬f.Free n ↔ f.next n ≠ none ∨ f.parent n ≠ none := by
  rw [free_iff, not_and_or]

/-! ## Appending -/

namespace Linked

/-- **What an append does**: a free node starts a chain, or it becomes the successor of the last
node of a chain it is not on. -/
theorem append_ok (hf : f.Linked) (hhead : ∀ m ∈ head, m < f.size) (hn : n < f.size)
    (happend : f.append head n = .ok (first, g)) :
    f.Free n ∧ n ∉ f.chain head ∧ (head = none ∧ first = n ∧ g = f ∨
      ∃ last, head = some first ∧ (f.chain head).getLast? = some last ∧ f.CanFollow last n ∧
        g = f.setNext last n) := by
  obtain ⟨hnext, hparent, ⟨rfl, ⟨rfl, rfl⟩ | ⟨rfl, hnil⟩⟩ | ⟨last, rfl, hlast, hne, rfl⟩⟩ :=
    append_cases happend
  · exact ⟨⟨hnext, hparent⟩, by simp, .inl ⟨rfl, rfl, rfl⟩⟩
  · have hchained := (hf.chained hhead).head_eq
    rw [hnil] at hchained
    cases hchained
  · refine ⟨⟨hnext, hparent⟩, fun hmem => ?_, .inr ⟨last, rfl, hlast, ?_, rfl⟩⟩
    · have hend := (hf.chained hhead).getLast?_eq hmem hnext
      exact hne (Option.some.inj (hlast.symm.trans hend))
    · exact ⟨(hf.chained hhead).next_getLast hlast, ⟨hnext, hparent⟩, hne,
        hf.lt_of_mem_chain hhead (List.mem_of_getLast? hlast), hn⟩

/-- The chain appended to goes on with the new node. -/
theorem chain_append (hf : f.Linked) (hhead : ∀ m ∈ head, m < f.size) (hn : n < f.size)
    (happend : f.append head n = .ok (first, g)) :
    g.chain (some first) = f.chain head ++ [n] := by
  obtain ⟨hfree, -, ⟨rfl, rfl, rfl⟩ | ⟨last, rfl, hlast, hfollow, rfl⟩⟩ :=
    hf.append_ok hhead hn happend
  · rw [chain_none]
    exact (Chained.single hfree.next).chain_eq fun k hk => List.mem_singleton.mp hk ▸ hn
  · rw [hf.chain_setNext hfollow hhead, if_pos (List.mem_of_getLast? hlast)]

theorem append (hf : f.Linked) (hhead : ∀ m ∈ head, m < f.size) (hn : n < f.size)
    (happend : f.append head n = .ok (first, g)) : g.Linked ∧ g.size = f.size ∧ first < f.size := by
  obtain ⟨-, -, ⟨-, rfl, rfl⟩ | ⟨last, rfl, -, hfollow, rfl⟩⟩ := hf.append_ok hhead hn happend
  · exact ⟨hf, rfl, hn⟩
  · exact ⟨hf.setNext hfollow, size_setNext .., hhead _ rfl⟩

/-- **A node is refused** if and only if it has a parent or a successor or is on the chain
itself. -/
theorem append_error_iff (hf : f.Linked) (hhead : ∀ m ∈ head, m < f.size) (hn : n < f.size) :
    (∃ fault, f.append head n = .error fault) ↔
      f.next n ≠ none ∨ f.parent n ≠ none ∨ n ∈ f.chain head := by
  rw [← or_assoc, ← not_free_iff]
  constructor
  · rintro ⟨fault, hfault⟩
    by_contra hok
    obtain ⟨hfree, hmem⟩ : f.Free n ∧ n ∉ f.chain head := by
      simpa only [not_or, not_not] using hok
    cases head with
    | none =>
      rw [Forest.append, hfree.next, hfree.parent] at hfault
      cases hfault
    | some first =>
      obtain ⟨last, -, happend, -⟩ :=
        exists_append (hf.chained hhead) (fun _ => hf.lt_of_mem_chain hhead) hmem hfree
      rw [happend] at hfault
      cases hfault
  · intro hrefused
    cases happend : f.append head n with
    | error fault => exact ⟨fault, rfl⟩
    | ok joined =>
      obtain ⟨hfree, hmem, -⟩ := hf.append_ok hhead hn happend
      exact absurd hrefused (by simp [hfree, hmem])

/-- An append takes neither parent nor successor from a node. -/
theorem free_of_append (hf : f.Linked) (hhead : ∀ m ∈ head, m < f.size) (hn : n < f.size)
    (happend : f.append head n = .ok (first, g)) (h : g.Free m) : f.Free m := by
  obtain ⟨-, -, ⟨-, -, rfl⟩ | ⟨last, -, -, hfollow, rfl⟩⟩ := hf.append_ok hhead hn happend
  · exact h
  · obtain ⟨hnext, hparent⟩ := h
    rw [next_setNext] at hnext
    split at hnext
    · cases hnext
    · exact ⟨hnext, by rwa [parent_setNext] at hparent⟩

/-! ## Joining -/

/-- **Joining keeps what each append keeps**, of the forest and of the chain that has come about,
whether or not it comes to its end. -/
theorem linkFrom_keeps {P : Forest → Option NodeId → Prop} :
    ∀ (ns : List NodeId) {f : Forest} {head : Option NodeId},
      (∀ {f g : Forest} {head : Option NodeId} {n first : NodeId}, f.Linked →
        (∀ m ∈ head, m < f.size) → n ∈ ns → n < f.size → f.append head n = .ok (first, g) →
        P f head → P g (some first)) →
      f.Linked → (∀ m ∈ head, m < f.size) → (∀ n ∈ ns, n < f.size) → P f head →
      ∃ head', P (f.linkFrom head ns).2 head'
  | [], _, head, _, _, _, _, h => ⟨head, h⟩
  | n :: ns, f, head, hstep, hf, hhead, hns, h => by
    unfold Forest.linkFrom
    split
    · rename_i first g happend
      have hn := hns n List.mem_cons_self
      obtain ⟨hg, hsize, hfirst⟩ := hf.append hhead hn happend
      exact linkFrom_keeps ns (fun hf hhead hm => hstep hf hhead (List.mem_cons_of_mem n hm)) hg
        (fun m hm => hsize ▸ Option.mem_some.mp hm ▸ hfirst)
        (fun m hm => hsize ▸ hns m (List.mem_cons_of_mem n hm))
        (hstep hf hhead List.mem_cons_self hn happend h)
    · exact ⟨head, h⟩

theorem linkFrom_ok {head' : Option NodeId} :
    ∀ (ns : List NodeId) {f : Forest} {head : Option NodeId}, f.Linked →
      (∀ m ∈ head, m < f.size) → (∀ n ∈ ns, n < f.size) → (f.linkFrom head ns).1 = .ok head' →
      (∀ n ∈ ns, f.Free n ∧ n ∉ f.chain head) ∧ ns.Nodup
  | [], _, _, _, _, _, _ => ⟨fun _ hn => absurd hn List.not_mem_nil, List.nodup_nil⟩
  | n :: ns, f, head, hf, hhead, hns, hok => by
    unfold Forest.linkFrom at hok
    split at hok
    · rename_i first g happend
      have hn := hns n List.mem_cons_self
      obtain ⟨hg, hsize, hfirst⟩ := hf.append hhead hn happend
      obtain ⟨hrest, hnodup⟩ := linkFrom_ok ns hg
        (fun m hm => hsize ▸ Option.mem_some.mp hm ▸ hfirst)
        (fun m hm => hsize ▸ hns m (List.mem_cons_of_mem n hm)) hok
      -- The nodes still to come are not on the chain that goes on with the first one.
      have hmiss : ∀ m ∈ ns, m ∉ f.chain head ∧ m ≠ n := fun m hm => by
        simpa [hf.chain_append hhead hn happend] using (hrest m hm).2
      obtain ⟨hfree, hmem, -⟩ := hf.append_ok hhead hn happend
      refine ⟨fun m hm => ?_, List.nodup_cons.mpr ⟨fun hm => (hmiss n hm).2 rfl, hnodup⟩⟩
      rcases List.mem_cons.mp hm with rfl | hm
      · exact ⟨hfree, hmem⟩
      · exact ⟨hf.free_of_append hhead hn happend (hrest m hm).1, (hmiss m hm).1⟩
    · cases hok

/-- **Joining fails** if and only if one of the nodes has a parent or a successor, or comes
twice. -/
theorem link_error_iff (hf : f.Linked) (hns : ∀ n ∈ ns, n < f.size) :
    (∃ fault, (f.link ns).1 = .error fault) ↔
      (∃ n ∈ ns, f.next n ≠ none ∨ f.parent n ≠ none) ∨ ¬ns.Nodup := by
  simp only [← not_free_iff]
  constructor
  · rintro ⟨fault, hfault⟩
    by_contra hok
    obtain ⟨hfree, hnodup⟩ : (∀ n ∈ ns, f.Free n) ∧ ns.Nodup := by
      simpa only [not_or, not_exists, not_and, not_not] using hok
    obtain ⟨head, g, hlink, -⟩ := exists_link hnodup hns hfree
    rw [hlink] at hfault
    cases hfault
  · intro hrefused
    cases hlink : (f.link ns).1 with
    | error fault => exact ⟨fault, rfl⟩
    | ok head' =>
      obtain ⟨hfree, hnodup⟩ :=
        hf.linkFrom_ok ns (fun _ hm => absurd hm (Option.not_mem_none _)) hns hlink
      rcases hrefused with ⟨n, hn, hnot⟩ | hnot
      · exact absurd (hfree n hn).1 hnot
      · exact absurd hnodup hnot

end Linked

/-! ## Nodes that follow one node only -/

theorem follows_of_setNext {last : NodeId} (h : (f.setNext last n).Follows m) :
    f.Follows m ∨ m = n := by
  obtain ⟨k, hk⟩ := h
  rw [next_setNext] at hk
  split at hk
  · exact .inr (Option.some.inj hk).symm
  · exact .inl ⟨k, hk⟩

namespace Untangled

theorem empty : Untangled {} := fun _ _ _ h => nomatch h

theorem congr (h : f.Untangled) (hnext : ∀ m, g.next m = f.next m) : g.Untangled :=
  fun m k n hm hk => h m k n (hnext m ▸ hm) (hnext k ▸ hk)

/-- A last node gets a successor that followed no node before. -/
theorem setNext {last : NodeId} (h : f.Untangled) (hn : ¬f.Follows n) :
    (f.setNext last n).Untangled := by
  intro m k p hm hk
  rw [next_setNext] at hm hk
  split at hm <;> split at hk
  · rename_i hmlast hklast
    exact hmlast.1.symm.trans hklast.1
  · exact absurd ⟨k, Option.some.inj hm ▸ hk⟩ hn
  · exact absurd ⟨m, Option.some.inj hk ▸ hm⟩ hn
  · exact h m k p hm hk

/-- **Appending a node that is no open end leaves no node behind two.** -/
theorem append (h : f.Untangled) (hf : f.Linked) (hhead : ∀ m ∈ head, m < f.size) (hn : n < f.size)
    (hend : ¬f.OpenEnd n) (happend : f.append head n = .ok (first, g)) : g.Untangled := by
  obtain ⟨hfree, -, ⟨-, -, rfl⟩ | ⟨last, -, -, -, rfl⟩⟩ := hf.append_ok hhead hn happend
  · exact h
  · exact h.setNext fun hfollows => hend ⟨hfree, hfollows⟩

/-- **Joining nodes that are no open ends leaves no node behind two**, though all but the first
become open ends on the way: by then they are on the chain itself. -/
theorem link (h : f.Untangled) (hf : f.Linked) (hns : ∀ n ∈ ns, n < f.size)
    (hend : ∀ n ∈ ns, ¬f.OpenEnd n) : (f.link ns).2.Untangled := by
  let P (f : Forest) (head : Option NodeId) : Prop :=
    f.Untangled ∧ ∀ n ∈ ns, f.OpenEnd n → n ∈ f.chain head
  have hstart : P f none := ⟨h, fun n hn hopen => absurd hopen (hend n hn)⟩
  obtain ⟨-, hlinked, -⟩ := Linked.linkFrom_keeps (P := P) ns
    (fun {f g head n first} hf hhead hmem hn happend ⟨h, hend⟩ => by
      have hmiss := (hf.append_ok hhead hn happend).2.1
      refine ⟨h.append hf hhead hn (fun hopen => hmiss (hend n hmem hopen)) happend, ?_⟩
      rintro m hm ⟨hfree, hfollows⟩
      rw [hf.chain_append hhead hn happend, List.mem_append, List.mem_singleton]
      have hbefore : f.Follows m ∨ m = n := by
        obtain ⟨-, -, ⟨-, -, rfl⟩ | ⟨last, -, -, -, rfl⟩⟩ := hf.append_ok hhead hn happend
        · exact .inl hfollows
        · exact follows_of_setNext hfollows
      exact hbefore.imp_left fun hfollows =>
        hend m hm ⟨hf.free_of_append hhead hn happend hfree, hfollows⟩)
    hf (fun _ hm => absurd hm (Option.not_mem_none _)) hns hstart
  exact hlinked

end Untangled

end ProbeScript.Forest
