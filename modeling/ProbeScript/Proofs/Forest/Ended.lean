import ProbeScript.Forest.Ancestor
import ProbeScript.Proofs.Forest.Grown

/-!
# Proofs/Forest/Ended — following links comes to an end

Chains and paths are read off a forest with a bound on their length.  A trail has no such bound, but
it may run out of steps.  In a forest that has grown it does not: chains end, and a parent is built
after its child (`Grown.lt_parent`), so on the way up there are fewer and fewer nodes left.  The
chains and paths read off are the whole trails, and whatever is looked for along them is found in
time or not there (`Grown.ended`).
-/

namespace ProbeScript.Forest

variable {f : Forest} {head : Option NodeId} {n p : NodeId} {ns : List NodeId}
  {log : List Receipt} {steps bound : Nat}

/-- The nodes met by following a link until there is none, or nothing if the steps do not do. -/
def trail (link : NodeId → Option NodeId) : Nat → Option NodeId → Option (List NodeId)
  | 0, _ => none
  | _ + 1, none => some []
  | steps + 1, some n => (trail link steps (link n)).map (n :: ·)

/-- The first node met to stop at, or none where the link ends before, or nothing if the steps do
not do. -/
def scan (link : NodeId → Option NodeId) (stop : NodeId → Bool) :
    Nat → Option NodeId → Option (Option NodeId)
  | 0, _ => none
  | _ + 1, none => some none
  | steps + 1, some n => if stop n then some (some n) else scan link stop steps (link n)

/-- Following successors ends and so does following parents, after as many steps as there are nodes
at the latest.  What is read off the forest is what is met on the way: chains and paths, the node to
append to, what encloses a node. -/
structure Ended (f : Forest) : Prop where
  next : WellFounded fun m n => f.next n = some m
  parent : WellFounded fun p n => f.parent n = some p
  chain : ∀ head steps, (∀ n ∈ head, n < f.size) → f.size < steps →
    trail f.next steps head = some (f.chain head)
  path : ∀ n steps, n < f.size → f.size < steps →
    trail f.parent steps (some n) = some (f.path n)
  /-- An append goes on until it meets the node itself or one without successor. -/
  append : ∀ head n steps, (∀ m ∈ head, m < f.size) → f.Free n → f.size < steps →
    scan f.next (fun m => m = n || (f.next m).isNone) steps head = some (f.chain head).getLast?
  nearest : ∀ n kind steps, n < f.size → f.size < steps →
    scan f.parent (fun m => f.kind m = kind) steps (some n) = some (f.nearest? n kind)
  statement : ∀ n steps, n < f.size → f.size < steps →
    scan f.parent f.isRightBelowProbe steps (some n) = some (f.statement n).toOption

/-- What a trail would meet later is not needed to stop earlier. -/
theorem scan_eq_of_trail {link : NodeId → Option NodeId} {stop : NodeId → Bool} :
    ∀ {steps : Nat} {head : Option NodeId} {ns : List NodeId}, trail link steps head = some ns →
      scan link stop steps head = some (ns.find? stop)
  | 0, _, _, h => nomatch h
  | _ + 1, none, _, h => by
    obtain rfl := Option.some.inj h
    rfl
  | steps + 1, some n, _, h => by
    obtain ⟨ns, hns, rfl⟩ := Option.map_eq_some_iff.mp h
    rw [scan, List.find?_cons]
    cases stop n with
    | true => rfl
    | false => exact scan_eq_of_trail hns

/-! ## Successors -/

theorem Chained.acc (h : f.Chained (some n) ns) : Acc (fun m n => f.next n = some m) n := by
  generalize hhead : some n = head at h
  induction h generalizing n with
  | nil => cases hhead
  | cons _ ih =>
    obtain rfl := Option.some.inj hhead
    exact .intro _ fun m hm => ih hm.symm

theorem Chained.trail_eq (h : f.Chained head ns) :
    ∀ {steps : Nat}, ns.length < steps → trail f.next steps head = some ns := by
  induction h with
  | nil =>
    intro steps hsteps
    obtain ⟨k, rfl⟩ := Nat.exists_eq_add_one_of_ne_zero (Nat.ne_of_gt hsteps)
    rfl
  | cons _ ih =>
    intro steps hsteps
    obtain ⟨k, rfl⟩ := Nat.exists_eq_add_one_of_ne_zero (Nat.ne_zero_of_lt hsteps)
    rw [trail, ih (Nat.lt_of_succ_lt_succ hsteps)]
    rfl

/-- On a chain only the last node has no successor, so a node that has none is met there. -/
theorem Chained.find?_eq_getLast? (h : f.Chained head ns) (hn : f.next n = none) :
    ns.find? (fun m => m = n || (f.next m).isNone) = ns.getLast? := by
  induction h with
  | nil => rfl
  | @cons m ns rest ih =>
    rw [List.find?_cons]
    cases hm : f.next m with
    | none =>
      rw [hm] at rest
      cases rest
      simp
    | some k =>
      have hmn : m ≠ n := fun heq => by simp [heq, hn] at hm
      rw [hm] at rest
      cases rest
      rw [decide_eq_false hmn, List.getLast?_cons_cons]
      exact ih

/-! ## Parents -/

/-- **A parent is built after its child.** -/
theorem Grown.lt_parent (h : Grown f log) (hp : f.parent n = some p) : n < p ∧ p < f.size := by
  rw [h.parent_eq, lastReceiver, Option.map_eq_some_iff] at hp
  obtain ⟨r, hr, rfl⟩ := hp
  have hmem := List.mem_of_find?_eq_some hr
  exact ⟨h.received_lt r hmem n (by simpa using List.find?_some hr), h.node_lt r hmem⟩

section Climbing

variable (hparent : ∀ {n p : Nat}, f.parent n = some p → n < p ∧ p < f.size)

include hparent

theorem wellFounded_parent : WellFounded fun p n => f.parent n = some p :=
  Subrelation.wf (r := InvImage (· < ·) (f.size - ·))
    (fun hp => Nat.sub_lt_sub_left (Nat.lt_trans (hparent hp).1 (hparent hp).2) (hparent hp).1)
    (InvImage.wf _ Nat.lt_wfRel.wf)

/-- From a node on there are as many nodes above it at most as were built after it. -/
theorem trail_parent {n : Nat} (hn : n < f.size) (hbound : f.size - n ≤ bound)
    (hsteps : f.size - n < steps) :
    trail f.parent steps (some n) = some (f.pathUpTo bound (some n)) := by
  induction bound generalizing n steps with
  | zero => omega
  | succ bound ih =>
    obtain ⟨k, rfl⟩ := Nat.exists_eq_add_one_of_ne_zero (Nat.ne_zero_of_lt hsteps)
    rw [trail, pathUpTo]
    cases hp : f.parent n with
    | none =>
      obtain ⟨j, rfl⟩ := Nat.exists_eq_add_one_of_ne_zero (show k ≠ 0 by omega)
      cases bound <;> rfl
    | some p =>
      obtain ⟨hnp, hpsize⟩ := hparent hp
      rw [ih hpsize (by omega) (by omega)]
      rfl

end Climbing

/-- **In a forest that has grown, following links ends.** -/
theorem Grown.ended (h : Grown f log) : f.Ended := by
  have hchain : ∀ head steps, (∀ n ∈ head, n < f.size) → f.size < steps →
      trail f.next steps head = some (f.chain head) := fun head steps hhead hsteps => by
    have hlength := (h.linked.chained hhead).length_le_size fun n => h.linked.lt_of_mem_chain hhead
    exact (h.linked.chained hhead).trail_eq (Nat.lt_of_le_of_lt hlength hsteps)
  have hpath : ∀ n steps, n < f.size → f.size < steps →
      trail f.parent steps (some n) = some (f.path n) := fun n steps hn hsteps =>
    trail_parent h.lt_parent hn (Nat.sub_le ..) (Nat.lt_of_le_of_lt (Nat.sub_le ..) hsteps)
  refine ⟨⟨fun n => (h.linked.ends n).elim fun _ hns => hns.acc⟩, wellFounded_parent h.lt_parent,
    hchain, hpath, fun head n steps hhead hfree hsteps => ?_, fun n kind steps hn hsteps => ?_,
    fun n steps hn hsteps => ?_⟩
  · rw [scan_eq_of_trail (hchain head steps hhead hsteps),
      (h.linked.chained hhead).find?_eq_getLast? hfree.next]
  · exact scan_eq_of_trail (hpath n steps hn hsteps)
  · rw [scan_eq_of_trail (hpath n steps hn hsteps), Forest.statement]
    cases (f.path n).find? f.isRightBelowProbe <;> rfl

end ProbeScript.Forest
