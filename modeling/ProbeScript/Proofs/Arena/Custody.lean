import ProbeScript.Grammar.Recipe
import ProbeScript.Proofs.Arena.Freed
import ProbeScript.Proofs.Workshop.Minted

/-!
# Proofs/Arena/Custody — an arena owns the nodes that came to it last

A log notes each node that comes to an arena, be it built there or adopted, and each node released.
The arena owns just those nodes for which the latest entry says that they came (`Arena.Holds`).
Every step of a workshop keeps to this (`Workshop.holds_step`), and so does a whole recipe
(`Recipe.holds_follow`).
-/

namespace ProbeScript

/-- A node changes hands: it comes to an arena, or is released from it. -/
inductive Handover where
  | taken (n : NodeId)
  | released (n : NodeId)
  deriving DecidableEq

namespace Handover

/-- The node that changes hands. -/
def node : Handover → NodeId
  | taken n => n
  | released n => n

/-- The node that comes to an arena. -/
def taken? : Handover → Option NodeId
  | taken n => some n
  | released _ => none

/-- The node released from an arena. -/
def released? : Handover → Option NodeId
  | taken _ => none
  | released n => some n

end Handover

/-- A node is held if it was taken last, going by a log that has the latest handover first. -/
def Held (log : List Handover) (n : NodeId) : Prop :=
  (log.find? fun h => h.node = n) = some (.taken n)

instance (log : List Handover) (n : NodeId) : Decidable (Held log n) :=
  inferInstanceAs (Decidable (_ = _))

section Held

variable {log : List Handover} {n m : NodeId}

@[simp] theorem not_held_nil : ¬ Held [] n := nofun

@[simp] theorem held_taken : Held (.taken m :: log) n ↔ n = m ∨ Held log n := by
  rw [Held, Held, List.find?_cons]
  by_cases hm : m = n
  · simp [Handover.node, hm]
  · simp [Handover.node, hm, Ne.symm hm]

@[simp] theorem held_released : Held (.released m :: log) n ↔ Held log n ∧ n ≠ m := by
  rw [Held, Held, List.find?_cons]
  by_cases hm : m = n
  · simp [Handover.node, hm]
  · simp [Handover.node, hm, Ne.symm hm]

theorem held_all_taken {ns : List NodeId} :
    Held (ns.map Handover.taken ++ log) n ↔ n ∈ ns ∨ Held log n := by
  induction ns with
  | nil => simp
  | cons m ns ih => rw [List.map_cons, List.cons_append, held_taken, ih, List.mem_cons, or_assoc]

end Held

/-! ## What changes hands -/

/-- The handovers of a step, the latest first; there are none where it meets a fault. -/
def Step.handovers (w : Workshop) : Step → List Handover
  | construct c => (((Step.construct c).receipts w).map Receipt.node).map Handover.taken
  | append _ _ | link _ => []
  | adopt n =>
    match w.arena.adopt w.forest w.ledger n with
    | .ok _ => [.taken n]
    | .error _ => []
  | release n =>
    match w.arena.release w.forest n with
    | .ok _ => [.released n]
    | .error _ => []

/-- The handovers of a recipe, the latest first. -/
def Recipe.handovers {τ α : Type} : Recipe τ α → Site τ → List Handover
  | done _, _ => []
  | raise _, _ => []
  | report d rest, s => rest.handovers (s.report d)
  | step taken rest, s =>
    let (outcome, workshop) := s.workshop.step taken
    (rest outcome).handovers { s with workshop } ++ taken.handovers s.workshop
  | client change rest, s =>
    let state := change s.client
    (rest state).handovers { s with client := state }

/-! ## An arena and its log -/

/-- An arena owns just the nodes that are held going by a log. -/
def Arena.Holds (a : Arena) (log : List Handover) : Prop := ∀ n, a.owns n = true ↔ Held log n

variable {a a' : Arena} {log : List Handover} {n m : NodeId}

namespace Arena

@[simp] theorem owns_insert (record : Option RecordId) :
    (a.insert n record).owns m = true ↔ m = n ∨ a.owns m = true := by
  rw [owns_iff, owns_iff, insert, List.map_cons, List.mem_cons]

theorem owns_of_adopt {f : Forest} {ledger : Ledger} (h : a.adopt f ledger n = .ok a') :
    a'.owns m = true ↔ m = n ∨ a.owns m = true := by
  rw [adopt] at h
  split at h
  · cases h
  · obtain rfl := Except.ok.inj h
    exact owns_insert _

end Arena

namespace Workshop

variable {w w' : Workshop} {ns : List NodeId}

theorem Mints.owns_iff (h : Mints w ns w') :
    w'.arena.owns m = true ↔ m ∈ ns ∨ w.arena.owns m = true := by
  induction h with
  | start => simp
  | mark _ _ _ ih => exact ih
  | @mint ns w' _ shape ih =>
    obtain ⟨record, hinsert, -⟩ := w'.exists_arena_mint shape
    rw [hinsert, Arena.owns_insert, ih, List.mem_cons, or_assoc]

/-- A node built and released at once leaves the arena as it was.  To this arena, a node built in
another one is no different. -/
theorem release_mint (w : Workshop) (shape : Shape) (f : Forest)
    (hfresh : w.arena.owns w.forest.size = false) :
    (w.mint shape).2.arena.release f w.forest.size = .ok w.arena := by
  obtain ⟨record, hinsert, -⟩ := w.exists_arena_mint shape
  have hothers : ∀ entry ∈ w.arena.live, (entry.1 != w.forest.size) = true := by
    intro entry hentry
    refine bne_iff_ne.mpr fun heq => Bool.false_ne_true (hfresh.symm.trans ?_)
    exact Arena.owns_iff.mpr (heq ▸ List.mem_map_of_mem hentry)
  rw [hinsert, Arena.release, Arena.entry?, Arena.insert, List.find?_cons_of_pos (by simp)]
  dsimp only
  rw [List.filter_cons_of_neg (by simp), List.filter_eq_self.mpr hothers]
  cases record <;> rfl

/-- **A step hands over what its log says.** -/
theorem holds_step (h : w.arena.Holds log) (s : Step) :
    (w.step s).2.arena.Holds (s.handovers w ++ log) := by
  intro n
  cases s with
  | construct c =>
    rw [step, Step.handovers, Step.receipts]
    cases hw : w.construct c with
    | ok built =>
      refine (mints_of_construct hw).owns_iff.trans ?_
      rw [held_all_taken, h n]
    | error fault => exact h n
  | append head m =>
    rw [step]
    cases w.forest.append head m <;> exact h n
  | link ns => exact h n
  | adopt m =>
    rw [step, Step.handovers]
    cases hadopt : w.arena.adopt w.forest w.ledger m with
    | ok a => exact (Arena.owns_of_adopt hadopt).trans (by simp [h n])
    | error fault => exact h n
  | release m =>
    rw [step, Step.handovers]
    cases hrelease : w.arena.release w.forest m with
    | ok a => exact (Arena.owns_iff_of_release hrelease).trans (by simp [h n])
    | error fault => exact h n

end Workshop

/-- **A recipe hands over what its log says**, whether it comes to an answer or raises something. -/
theorem Recipe.holds_follow {τ α : Type} (r : Recipe τ α) {s : Site τ}
    (h : s.workshop.arena.Holds log) :
    (r.follow s).2.workshop.arena.Holds (r.handovers s ++ log) := by
  induction r generalizing s log with
  | done answer => exact h
  | raise what => exact h
  | report d rest ih => exact ih h
  | step taken rest ih =>
    have hrest := ih (s.workshop.step taken).1 (s := { s with workshop := _ })
      (Workshop.holds_step h taken)
    rwa [← List.append_assoc] at hrest
  | client change rest ih => exact ih _ h

end ProbeScript
