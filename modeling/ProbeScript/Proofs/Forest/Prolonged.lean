import ProbeScript.Proofs.Forest.Appended

/-!
# Proofs/Forest/Prolonged — what stays while a forest grows

A forest prolongs another one if it has all its nodes, their successors and their shapes, but for
the modules of calls.  Building a node, giving a last node its successor and marking a call all do
(`Prolongs.add`, `Prolongs.setNext`, `Prolongs.setModule`).  A chain of the one forest is then how
the chain begins in the other (`Prolongs.prefix_chain`).
-/

namespace ProbeScript

namespace Shape

/-- The shape without the module of a call, which may be given to it later. -/
def unmarked : Shape → Shape
  | call _ function args argCount => call none function args argCount
  | shape => shape

/-- What is no call is its own unmarked shape. -/
theorem eq_of_unmarked_eq {shape shape' : Shape} (h : shape.unmarked = shape'.unmarked)
    (hcall : shape'.kind ≠ .call) : shape = shape' := by
  cases shape' <;> first | exact absurd rfl hcall | (cases shape <;> first | exact h | cases h)

end Shape

namespace Forest

variable {f g h : Forest} {head : Option NodeId} {n last : NodeId} {ns ms : List NodeId}
  {log : List Receipt}

/-- A forest has all nodes of another one, with their successors and unmarked shapes. -/
structure Prolongs (g f : Forest) : Prop where
  size_le : f.size ≤ g.size
  next : ∀ {n m}, f.next n = some m → g.next n = some m
  shape : ∀ n < f.size, (g.shape n).unmarked = (f.shape n).unmarked

/-- A chain goes on from where it ended. -/
theorem Chained.prefix_of_next (hf : f.Chained head ns) (hg : g.Chained head ms)
    (hnext : ∀ {n m}, f.next n = some m → g.next n = some m) : ns <+: ms := by
  induction hf generalizing ms with
  | nil => exact List.nil_prefix
  | @cons n ns rest ih =>
    cases hg with
    | @cons _ ms hgrest =>
      refine List.cons_prefix_cons.mpr ⟨rfl, ?_⟩
      cases hn : f.next n with
      | none =>
        rw [hn] at rest
        cases rest
        exact List.nil_prefix
      | some m => exact ih (by rwa [hn, ← hnext hn])

namespace Prolongs

theorem refl (f : Forest) : f.Prolongs f := ⟨Nat.le_refl _, id, fun _ _ => rfl⟩

theorem trans (hgf : g.Prolongs f) (hhg : h.Prolongs g) : h.Prolongs f where
  size_le := Nat.le_trans hgf.size_le hhg.size_le
  next hn := hhg.next (hgf.next hn)
  shape n hn := (hhg.shape n (Nat.lt_of_lt_of_le hn hgf.size_le)).trans (hgf.shape n hn)

theorem add (f : Forest) (shape : Shape) : (f.add shape).2.Prolongs f where
  size_le := by
    rw [size_add]
    exact Nat.le_succ _
  next hn := by rwa [next_add]
  shape n hn := by rw [shape_add, if_neg (Nat.ne_of_lt hn)]

theorem setModule (f : Forest) (n : NodeId) (module : String) :
    (f.setModule n module).Prolongs f where
  size_le := Nat.le_of_eq (f.size_setModule n module).symm
  next hm := by rwa [next_setModule]
  shape m _ := read_setModule (fun _ _ _ _ _ => rfl) f n module m

/-- A node that has a successor is not given another one. -/
theorem setNext (hlast : f.next last = none) : (f.setNext last n).Prolongs f where
  size_le := Nat.le_of_eq (f.size_setNext last n).symm
  next {k m} hk := by
    have hne : last ≠ k := fun h => by simp [← h, hlast] at hk
    rw [next_setNext, if_neg fun hc => hne hc.1, hk]
  shape k _ := congrArg Shape.unmarked (f.shape_setNext last n k)

theorem append {first : NodeId} (hf : f.Linked) (hhead : ∀ m ∈ head, m < f.size) (hn : n < f.size)
    (happend : f.append head n = .ok (first, g)) : g.Prolongs f := by
  obtain ⟨-, -, ⟨-, -, rfl⟩ | ⟨last, -, -, hfollow, rfl⟩⟩ := hf.append_ok hhead hn happend
  · exact refl g
  · exact setNext hfollow.next_last

theorem link (hf : f.Linked) (hns : ∀ n ∈ ns, n < f.size) : (f.link ns).2.Prolongs f := by
  obtain ⟨-, hlinked⟩ := Linked.linkFrom_keeps (P := fun g _ => g.Prolongs f) ns
    (fun hg hhead _ hn happend h => h.trans (append hg hhead hn happend)) hf
    (fun _ hm => absurd hm (Option.not_mem_none _)) hns (refl f)
  exact hlinked

/-- **What a chain was before is the first part of it.** -/
theorem prefix_chain (hgf : g.Prolongs f) (hf : f.Linked) (hg : g.Linked)
    (hhead : ∀ n ∈ head, n < f.size) : f.chain head <+: g.chain head :=
  (hf.chained hhead).prefix_of_next
    (hg.chained fun n hn => Nat.lt_of_lt_of_le (hhead n hn) hgf.size_le) hgf.next

end Prolongs

end Forest

end ProbeScript
