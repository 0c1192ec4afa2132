import Mathlib.Data.Finset.Card
import Mathlib.Data.List.Nodup
import ProbeScript.Forest.Chain
import ProbeScript.Forest.Lemmas

/-!
# Proofs/Forest/Chained — chains that end

`Forest.chain` follows successors for as many steps as there are nodes.  `Chained` says what it is
meant to find: all nodes met on the way from a head, and then an end.  Where it holds, the chain has
no node twice (`nodup`) and the bound cuts nothing off (`chain_eq`).  Making a node the successor of
a last one only lengthens chains at their end (`chained_setNext`).
-/

namespace ProbeScript.Forest

variable {f g : Forest} {head : Option NodeId} {ns ms : List NodeId} {n m last : NodeId}

/-- The successors from a head on are the given nodes, and after the last of them there is none. -/
inductive Chained (f : Forest) : Option NodeId → List NodeId → Prop where
  | nil : f.Chained none []
  | cons {n : NodeId} {ns : List NodeId} (rest : f.Chained (f.next n) ns) :
    f.Chained (some n) (n :: ns)

namespace Chained

theorem single (h : f.next n = none) : f.Chained (some n) [n] := .cons (h ▸ .nil)

theorem unique (h : f.Chained head ns) : ∀ {ms : List NodeId}, f.Chained head ms → ns = ms := by
  induction h with
  | nil => rintro _ ⟨⟩; rfl
  | cons _ ih => rintro _ ⟨⟩; exact congrArg _ (ih ‹_›)

theorem head_eq (h : f.Chained head ns) : head = ns.head? := by cases h <;> rfl

/-- The chain is read off the successors alone. -/
theorem congr (h : f.Chained head ns) (hnext : ∀ n ∈ ns, g.next n = f.next n) :
    g.Chained head ns := by
  induction h with
  | nil => exact .nil
  | @cons n ns _ ih =>
    have hrest := ih fun m hm => hnext m (List.mem_cons_of_mem n hm)
    exact .cons (hnext n List.mem_cons_self ▸ hrest)

/-- From any node of a chain on there is a chain. -/
theorem from_mem : ∀ {ns : List NodeId} {head : Option NodeId}, f.Chained head ns → n ∈ ns →
    ∃ before after, ns = before ++ n :: after ∧ f.Chained (some n) (n :: after)
  | _ :: _, _, .cons rest, hn => by
    rcases List.mem_cons.mp hn with rfl | hn
    · exact ⟨[], _, rfl, .cons rest⟩
    · obtain ⟨before, after, rfl, h⟩ := from_mem rest hn
      exact ⟨_ :: before, after, rfl, h⟩

/-- **A chain that ends has no node twice** — it would go round between the two places for good. -/
theorem nodup (h : f.Chained head ns) : ns.Nodup := by
  induction h with
  | nil => exact List.nodup_nil
  | @cons n ns rest ih =>
    refine List.nodup_cons.mpr ⟨fun hn => ?_, ih⟩
    obtain ⟨before, after, rfl, h⟩ := from_mem rest hn
    have hlen := congrArg List.length (h.unique (.cons rest))
    simp only [List.length_cons, List.length_append] at hlen
    omega

theorem length_le_size (h : f.Chained head ns) (hlt : ∀ n ∈ ns, n < f.size) :
    ns.length ≤ f.size := by
  have hsub : ns.toFinset ⊆ Finset.range f.size := fun n hn =>
    Finset.mem_range.mpr (hlt n (List.mem_toFinset.mp hn))
  have hcard := Finset.card_le_card hsub
  rwa [List.toFinset_card_of_nodup h.nodup, Finset.card_range] at hcard

theorem chainUpTo_eq (h : f.Chained head ns) :
    ∀ {bound : Nat}, ns.length ≤ bound → f.chainUpTo bound head = ns := by
  induction h with
  | nil => intro bound _; cases bound <;> rfl
  | @cons n ns _ ih =>
    intro bound hlen
    match bound, hlen with
    | bound + 1, hlen => rw [chainUpTo, ih (Nat.le_of_succ_le_succ hlen)]

/-- **The bound on a chain cuts nothing off.** -/
theorem chain_eq (h : f.Chained head ns) (hlt : ∀ n ∈ ns, n < f.size) : f.chain head = ns :=
  h.chainUpTo_eq (h.length_le_size hlt)

/-- The last node of a chain has no successor. -/
theorem next_getLast (h : f.Chained head ns) (hlast : ns.getLast? = some last) :
    f.next last = none := by
  induction h with
  | nil => nomatch hlast
  | @cons n ns rest ih =>
    match ns, rest, ih with
    | [], rest, _ =>
      obtain rfl : n = last := by simpa using hlast
      exact rest.head_eq
    | m :: ns, _, ih => exact ih (by rwa [List.getLast?_cons_cons] at hlast)

/-- A node of a chain that has no successor is the last. -/
theorem getLast?_eq (h : f.Chained head ns) (hn : n ∈ ns) (hnext : f.next n = none) :
    ns.getLast? = some n := by
  obtain ⟨before, after, rfl, hfrom⟩ := h.from_mem hn
  obtain rfl : after = [] := List.cons.inj (hfrom.unique (.single hnext)) |>.2
  simp

/-! ## Appending -/

/-- **A new successor of a last node prolongs the chains that end there, and no others.** -/
theorem setNext (h : f.Chained head ns) (hlast : f.next last = none) (hn : f.next n = none)
    (hne : last ≠ n) (hlt : last < f.size) :
    (f.setNext last n).Chained head (if last ∈ ns then ns ++ [n] else ns) := by
  have hsingle : (f.setNext last n).Chained (some n) [n] :=
    single (by rw [next_setNext, if_neg fun hc => hne hc.1, hn])
  induction h with
  | nil => exact .nil
  | @cons m ns rest ih =>
    by_cases hm : last = m
    · subst hm
      rw [hlast] at rest
      cases rest
      rw [if_pos List.mem_cons_self]
      exact .cons (by rwa [next_setNext, if_pos ⟨rfl, hlt⟩])
    · have hnext : (f.setNext last n).next m = f.next m := by
        rw [next_setNext, if_neg fun hc => hm hc.1]
      rw [← hnext] at ih
      by_cases hmem : last ∈ ns
      · rw [if_pos hmem] at ih
        rw [if_pos (List.mem_cons_of_mem m hmem)]
        exact .cons ih
      · rw [if_neg hmem] at ih
        rw [if_neg fun hc => (List.mem_cons.mp hc).elim hm hmem]
        exact .cons ih

end Chained

@[simp] theorem chain_none (f : Forest) : f.chain none = [] := by
  rw [chain]
  cases f.size <;> rfl

/-! ## Chains that miss a node

The bound on a chain is the number of nodes, so where it cuts a chain off the nodes met are all
there are, or one is met twice. -/

/-- A chain that a bound cuts off has as many nodes as that, each with a successor. -/
theorem chained_or_cut :
    ∀ (bound : Nat) (head : Option NodeId), f.Chained head (f.chainUpTo bound head) ∨
      (f.chainUpTo bound head).length = bound ∧ ∀ n ∈ f.chainUpTo bound head, f.next n ≠ none
  | 0, _ => .inr ⟨rfl, fun _ hn => absurd hn List.not_mem_nil⟩
  | _ + 1, none => .inl .nil
  | bound + 1, some n => by
    rw [chainUpTo]
    rcases chained_or_cut bound (f.next n) with hrest | ⟨hlen, hrest⟩
    · exact .inl (.cons hrest)
    · cases hn : f.next n with
      | none =>
        rw [show f.chainUpTo bound none = [] by cases bound <;> rfl]
        exact .inl (.single hn)
      | some m =>
        rw [hn] at hlen hrest
        refine .inr ⟨by rw [List.length_cons, hlen], fun k hk => ?_⟩
        rcases List.mem_cons.mp hk with rfl | hk
        · exact hn ▸ Option.some_ne_none m
        · exact hrest k hk

/-- **A chain without repetition that misses a node in use leads to an end.** -/
theorem chained_of_nodup {p : NodeId} (hnodup : (f.chain head).Nodup) (hp : p < f.size)
    (hmiss : p ∉ f.chain head) : f.Chained head (f.chain head) := by
  rcases f.chained_or_cut f.size head with h | ⟨hlen, hnext⟩
  · exact h
  · have hsub : insert p (f.chain head).toFinset ⊆ Finset.range f.size := fun n hn => by
      rw [Finset.mem_range]
      rcases Finset.mem_insert.mp hn with rfl | hn
      · exact hp
      · by_contra hle
        refine hnext n (List.mem_toFinset.mp hn) ?_
        rw [next, f.node_eq_default (Nat.le_of_not_lt hle)]
        rfl
    have hcard := Finset.card_le_card hsub
    rw [Finset.card_insert_of_notMem (mt List.mem_toFinset.mp hmiss), Finset.card_range,
      List.toFinset_card_of_nodup hnodup] at hcard
    rw [← chain] at hlen
    omega

/-! ## What appending does -/

/-- **An append leaves the forest alone or gives a last node its successor**, which has neither
parent nor successor itself. -/
theorem append_cases {first : NodeId} (h : f.append head n = .ok (first, g)) :
    f.next n = none ∧ f.parent n = none ∧
      (g = f ∧ (head = none ∧ first = n ∨ head = some first ∧ f.chain head = []) ∨
        ∃ last, head = some first ∧ (f.chain head).getLast? = some last ∧ last ≠ n ∧
          g = f.setNext last n) := by
  unfold append at h
  split at h
  · cases h
  · rename_i hfree
    rw [Bool.or_eq_true, not_or, Option.not_isSome_iff_eq_none, Option.not_isSome_iff_eq_none]
      at hfree
    refine ⟨hfree.1, hfree.2, ?_⟩
    split at h
    · cases h
      exact .inl ⟨rfl, .inl ⟨rfl, rfl⟩⟩
    · split at h
      · rename_i hlast
        cases h
        exact .inl ⟨rfl, .inr ⟨rfl, List.getLast?_eq_none_iff.mp hlast⟩⟩
      · rename_i last hlast
        split at h
        · cases h
        · cases h
          exact .inr ⟨last, rfl, hlast, ‹_›, rfl⟩

/-! ## What new successors keep -/

section Keeps

variable {P : Forest → Prop}
  (hset : ∀ {f : Forest} (last n : NodeId), P f → P (f.setNext last n))

include hset

theorem append_keeps (h : P f) {first : NodeId} (happend : f.append head n = .ok (first, g)) :
    P g := by
  obtain ⟨-, -, ⟨rfl, -⟩ | ⟨last, -, -, -, rfl⟩⟩ := append_cases happend
  · exact h
  · exact hset last n h

/-- Joining keeps what every new successor keeps, whether or not it comes to its end. -/
theorem linkFrom_keeps :
    ∀ (ns : List NodeId) {f : Forest} (head : Option NodeId), P f → P (f.linkFrom head ns).2
  | [], _, _, h => h
  | n :: ns, f, head, h => by
    unfold linkFrom
    split
    · rename_i first g happend
      exact linkFrom_keeps ns (some first) (append_keeps hset h happend)
    · exact h

end Keeps

/-! ## Joining -/

/-- A node without parent and successor, which can be appended. -/
structure Free (f : Forest) (n : NodeId) : Prop where
  next : f.next n = none
  parent : f.parent n = none

/-- One forest differs from another at most in the successors of some nodes. -/
structure Relinked (f g : Forest) (ns : List NodeId) : Prop where
  size : g.size = f.size
  shape : ∀ m, g.shape m = f.shape m
  parent : ∀ m, g.parent m = f.parent m
  next : ∀ m ∉ ns, g.next m = f.next m

theorem Relinked.refl (f : Forest) (ns : List NodeId) : f.Relinked f ns :=
  ⟨rfl, fun _ => rfl, fun _ => rfl, fun _ _ => rfl⟩

theorem Relinked.trans {h : Forest} (hfg : f.Relinked g ns) (hgh : g.Relinked h ns) :
    f.Relinked h ns :=
  ⟨hgh.size.trans hfg.size, fun m => (hgh.shape m).trans (hfg.shape m),
    fun m => (hgh.parent m).trans (hfg.parent m),
    fun m hm => (hgh.next m hm).trans (hfg.next m hm)⟩

theorem relinked_setNext (hlast : last ∈ ns) : f.Relinked (f.setNext last n) ns := by
  refine ⟨size_setNext .., shape_setNext _ _ _, parent_setNext _ _ _, fun m hm => ?_⟩
  rw [next_setNext, if_neg]
  rintro ⟨rfl, -⟩
  exact hm hlast

/-- **A free node can be appended to a chain it is not on.** -/
theorem exists_append {first : NodeId} (h : f.Chained (some first) ns)
    (hlt : ∀ m ∈ ns, m < f.size) (hn : n ∉ ns) (hfree : f.Free n) :
    ∃ last ∈ ns, f.append (some first) n = .ok (first, f.setNext last n) ∧
      (f.setNext last n).Chained (some first) (ns ++ [n]) := by
  have hne : ns ≠ [] := by rintro rfl; cases h
  obtain ⟨last, hlast⟩ := Option.ne_none_iff_exists'.mp (mt List.getLast?_eq_none_iff.mp hne)
  have hmem : last ∈ ns := List.mem_of_getLast? hlast
  have hlastn : last ≠ n := fun heq => hn (heq ▸ hmem)
  have hlonger := h.setNext (h.next_getLast hlast) hfree.next hlastn (hlt last hmem)
  rw [if_pos hmem] at hlonger
  refine ⟨last, hmem, ?_, hlonger⟩
  rw [append, hfree.next, hfree.parent, h.chain_eq hlt, hlast]
  simp [hlastn]

/-- **Free nodes can be joined to a chain one after the other.** -/
theorem exists_linkFrom {first : NodeId} :
    ∀ (rest : List NodeId) {done : List NodeId} {f : Forest}, f.Chained (some first) done →
      (done ++ rest).Nodup → (∀ n ∈ done ++ rest, n < f.size) → (∀ n ∈ rest, f.Free n) →
      ∃ g, f.linkFrom (some first) rest = (.ok (some first), g) ∧
        g.Chained (some first) (done ++ rest) ∧ f.Relinked g (done ++ rest)
  | [], done, f, h, _, _, _ => ⟨f, rfl, by rwa [List.append_nil], .refl ..⟩
  | n :: rest, done, f, h, hnodup, hlt, hfree => by
    have hdisjoint := (List.nodup_append.mp hnodup).2.2
    have hn : n ∉ done := fun hn => hdisjoint n hn n List.mem_cons_self rfl
    obtain ⟨last, hlast, happend, hlonger⟩ := exists_append h
      (fun m hm => hlt m (List.mem_append_left _ hm)) hn (hfree n List.mem_cons_self)
    have hsplit : done ++ n :: rest = done ++ [n] ++ rest := by simp
    -- The nodes still to come stay free, for only the last node of the chain has changed.
    have hrest : ∀ m ∈ rest, (f.setNext last n).Free m := fun m hm => by
      have hm' := hfree m (List.mem_cons_of_mem n hm)
      have hmdone : m ∉ done := fun hmem => hdisjoint m hmem m (List.mem_cons_of_mem n hm) rfl
      exact ⟨((relinked_setNext hlast).next m hmdone).trans hm'.next,
        (parent_setNext ..).trans hm'.parent⟩
    rw [hsplit] at hnodup hlt ⊢
    obtain ⟨g, hg, hchained, hrelinked⟩ :=
      exists_linkFrom rest hlonger hnodup (by simpa using hlt) hrest
    refine ⟨g, by rw [linkFrom, happend]; exact hg, hchained, ?_⟩
    exact (relinked_setNext (List.mem_append_left _ (List.mem_append_left _ hlast))).trans hrelinked

/-- **Free nodes can be joined into one chain.** -/
theorem exists_link (hnodup : ns.Nodup) (hlt : ∀ n ∈ ns, n < f.size) (hfree : ∀ n ∈ ns, f.Free n) :
    ∃ head g, f.link ns = (.ok head, g) ∧ g.Chained head ns ∧ f.Relinked g ns := by
  cases ns with
  | nil => exact ⟨none, f, rfl, .nil, .refl ..⟩
  | cons n ns =>
    obtain ⟨hnext, hparent⟩ := hfree n List.mem_cons_self
    have happend : f.append none n = .ok (n, f) := by
      rw [append, hnext, hparent]
      rfl
    obtain ⟨g, hg, hchained, hrelinked⟩ := exists_linkFrom ns (.single hnext) hnodup hlt
      fun m hm => hfree m (List.mem_cons_of_mem n hm)
    exact ⟨some n, g, by rw [link, linkFrom, happend]; exact hg, hchained, hrelinked⟩

end ProbeScript.Forest
