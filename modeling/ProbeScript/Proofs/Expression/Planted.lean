import ProbeScript.Proofs.Expression.Reading

/-!
# Proofs/Expression/Planted — trees built from the bottom up

Building from the bottom up gives a tree the identities of one interval, its root the last of them:
its nodes are left in the very order in which they were built.  `Plot` says so of an interval of a
forest, `Planted` also says which expression is read there, and `Tiled` puts several such intervals
side by side.  What is built or linked elsewhere leaves them alone (`Tiled.kept`), and a node built
over the roots of all of them is the root of one again (`Tiled.add`).
-/

namespace ProbeScript

/-- The counts kept in a shape are those of the given chains. -/
def Shape.Counted (chain : Option NodeId → List NodeId) : Shape → Prop
  | .call _ _ args argCount => argCount = (chain args).length
  | .record args argCount => argCount = (chain (some args)).length
  | .ifElse _ thenHead thenLast _ => thenLast = (chain thenHead).getLast?
  | _ => True

/-- Counts hold of chains that agree from the heads in a shape on. -/
theorem Shape.Counted.congr {chain chain' : Option NodeId → List NodeId} {shape : Shape}
    (h : shape.Counted chain) (hnone : chain' none = chain none)
    (hsome : ∀ head, Slot.chain head ∈ shape.slots → chain' (some head) = chain (some head)) :
    shape.Counted chain' := by
  have heq : ∀ head : Option NodeId, (∀ s ∈ (head.map Slot.chain).toList, s ∈ shape.slots) →
      chain' head = chain head := by
    intro head hhead
    cases head with
    | none => exact hnone
    | some head => exact hsome head (hhead _ (List.mem_singleton_self _))
  cases shape with
  | call module function args argCount => exact h.trans (congrArg _ (heq args fun _ hs => hs).symm)
  | record args argCount => exact h.trans (congrArg _ (heq (some args) fun _ hs => hs).symm)
  | ifElse condition thenHead thenLast elseHead =>
    exact h.trans (congrArg _ (heq thenHead fun _ hs => by simp_all [Shape.slots]).symm)
  | _ => trivial

namespace Forest

variable {f g : Forest} {lo hi n m : Nat} {e : Expression} {shape : Shape}

/-! ## Settled nodes -/

/-- A node whose children were built from `lo` on and have no other parent, and whose chains and
counts are in order. -/
structure Settled (f : Forest) (lo m : Nat) : Prop where
  inside : ∀ c ∈ f.children m, lo ≤ c ∧ c < m
  parent : ∀ c ∈ f.children m, f.parent c = some m
  chained : ∀ head, Slot.chain head ∈ (f.shape m).slots →
    f.Chained (some head) (f.chain (some head))
  counted : (f.shape m).Counted f.chain

namespace Settled

theorem mono {lo' : Nat} (h : f.Settled lo m) (hle : lo' ≤ lo) : f.Settled lo' m :=
  { h with inside := fun c hc => ⟨Nat.le_trans hle (h.inside c hc).1, (h.inside c hc).2⟩ }

/-- The places of a settled node hold the same nodes while the links of its children stay. -/
theorem fill_eq (h : f.Settled lo m) (hm : m < f.size) (hsize : f.size ≤ g.size)
    (hnext : ∀ c, lo ≤ c → c < m → g.next c = f.next c) :
    ∀ s ∈ (f.shape m).slots, g.fill s = f.fill s
  | .one _, _ => rfl
  | .chain head, hs => by
    have hin : ∀ c ∈ f.chain (some head), lo ≤ c ∧ c < m := fun c hc =>
      h.inside c (List.mem_flatMap.mpr ⟨_, hs, hc⟩)
    exact (h.chained head hs).chain_congr (fun c hc => Nat.lt_trans (hin c hc).2 hm)
      (fun c hc => hnext c (hin c hc).1 (hin c hc).2) hsize

/-- **A node stays settled while its places, its counts and the links of its children stay.** -/
theorem frame (h : f.Settled lo m) (hm : m < f.size) (hsize : f.size ≤ g.size)
    (hslots : (g.shape m).slots = (f.shape m).slots)
    (hcounted : ∀ chain, (f.shape m).Counted chain → (g.shape m).Counted chain)
    (hnext : ∀ c, lo ≤ c → c < m → g.next c = f.next c)
    (hparent : ∀ c, lo ≤ c → c < m → g.parent c = f.parent c) :
    g.children m = f.children m ∧ g.Settled lo m := by
  have hfill := h.fill_eq hm hsize hnext
  have hchildren : g.children m = f.children m := by
    rw [children, children, hslots]
    exact List.flatMap_congr hfill
  refine ⟨hchildren, ?_, ?_, ?_, ?_⟩
  · rw [hchildren]
    exact h.inside
  · rw [hchildren]
    intro c hc
    rw [hparent c (h.inside c hc).1 (h.inside c hc).2]
    exact h.parent c hc
  · intro head hs
    rw [hslots] at hs
    have hchain : g.chain (some head) = f.chain (some head) := hfill _ hs
    rw [hchain]
    refine (h.chained head hs).congr fun c hc => ?_
    have hin := h.inside c (List.mem_flatMap.mpr ⟨_, hs, hc⟩)
    exact hnext c hin.1 hin.2
  · refine (hcounted f.chain h.counted).congr ?_ fun head hs => ?_
    · rw [chain_none, chain_none]
    · rw [hslots] at hs
      exact hfill _ hs

end Settled

/-! ## Plots -/

/-- The nodes from `lo` to `n` are the tree below `n`, and they were built in the order in which a
walk leaves them. -/
structure Plot (f : Forest) (lo n : Nat) : Prop where
  le : lo ≤ n
  lt_size : n < f.size
  settled : ∀ m, lo ≤ m → m ≤ n → f.Settled lo m
  order : f.postorder n = List.range' lo (n + 1 - lo)

theorem grounded_of_settled (h : ∀ m, lo ≤ m → m ≤ n → f.Settled lo m) :
    ∀ m, lo ≤ m → m ≤ n → f.Grounded m := by
  intro m
  induction m using Nat.strong_induction_on with
  | _ m ih =>
    intro hlo hn
    refine .intro fun c hc => ?_
    obtain ⟨hc₁, hc₂⟩ := (h m hlo hn).inside c hc
    exact ih c hc₂ hc₁ (Nat.le_trans (Nat.le_of_lt hc₂) hn)

theorem Plot.grounded (h : f.Plot lo n) : f.Grounded n :=
  grounded_of_settled h.settled n h.le (Nat.le_refl n)

theorem Plot.mem_preorder_iff (h : f.Plot lo n) : m ∈ f.preorder n ↔ lo ≤ m ∧ m ≤ n := by
  rw [← h.grounded.postorder_perm.mem_iff, h.order, List.mem_range'_1]
  have := h.le
  omega

/-- **A plot is left alone by changes that keep its places and counts, and all links inside.** -/
theorem Plot.frame (h : f.Plot lo n) (hsize : f.size ≤ g.size)
    (hslots : ∀ m, lo ≤ m → m ≤ n → (g.shape m).slots = (f.shape m).slots)
    (hcounted : ∀ m, lo ≤ m → m ≤ n → ∀ chain,
      (f.shape m).Counted chain → (g.shape m).Counted chain)
    (hnext : ∀ c, lo ≤ c → c < n → g.next c = f.next c)
    (hparent : ∀ c, lo ≤ c → c < n → g.parent c = f.parent c) : g.Plot lo n := by
  have hframe : ∀ m, lo ≤ m → m ≤ n → g.children m = f.children m ∧ g.Settled lo m :=
    fun m hlo hn => (h.settled m hlo hn).frame (Nat.lt_of_le_of_lt hn h.lt_size) hsize
      (hslots m hlo hn) (hcounted m hlo hn)
      (fun c hc hcm => hnext c hc (Nat.lt_of_lt_of_le hcm hn))
      (fun c hc hcm => hparent c hc (Nat.lt_of_lt_of_le hcm hn))
  have hsettled : ∀ m, lo ≤ m → m ≤ n → g.Settled lo m := fun m hlo hn => (hframe m hlo hn).2
  have horder : ∀ m, lo ≤ m → m ≤ n → g.postorder m = f.postorder m := by
    intro m
    induction m using Nat.strong_induction_on with
    | _ m ih =>
      intro hlo hn
      rw [(grounded_of_settled hsettled m hlo hn).postorder_eq,
        (grounded_of_settled h.settled m hlo hn).postorder_eq, (hframe m hlo hn).1]
      refine congrArg (· ++ [m]) (List.flatMap_congr fun c hc => ?_)
      obtain ⟨hc₁, hc₂⟩ := (h.settled m hlo hn).inside c hc
      exact ih c hc₂ hc₁ (Nat.le_trans (Nat.le_of_lt hc₂) hn)
  exact ⟨h.le, Nat.lt_of_lt_of_le h.lt_size hsize, hsettled,
    (horder n h.le (Nat.le_refl n)).trans h.order⟩

/-! ## Planted expressions -/

/-- An expression is planted where reading the root of a plot gives it. -/
structure Planted (f : Forest) (lo n : Nat) (e : Expression) : Prop extends f.Plot lo n where
  reads : f.readUpTo (n + 1) n = some e

/-- What is read of settled nodes is read in any forest with the same shapes and links inside. -/
theorem readUpTo_frame (hsettled : ∀ m, lo ≤ m → m < hi → f.Settled lo m) (hhi : hi ≤ f.size)
    (hsize : f.size ≤ g.size) (hshape : ∀ m, lo ≤ m → m < hi → g.shape m = f.shape m)
    (hnext : ∀ c, lo ≤ c → c + 1 < hi → g.next c = f.next c) :
    ∀ {depth m : Nat} {e : Expression}, lo ≤ m → m < hi → f.readUpTo depth m = some e →
      g.readUpTo depth m = some e
  | 0, _, _, _, _, hread => nomatch hread
  | depth + 1, m, e, hlo, hm, hread => by
    have hset := hsettled m hlo hm
    rw [readUpTo_succ] at hread ⊢
    rw [hshape m hlo hm]
    refine readShape_transfer hread ?_ fun c hc x hx => ?_
    · exact hset.fill_eq (Nat.lt_of_lt_of_le hm hhi) hsize fun c hc hcm =>
        hnext c hc (Nat.lt_of_le_of_lt hcm hm)
    · obtain ⟨hc₁, hc₂⟩ := hset.inside c hc
      exact readUpTo_frame hsettled hhi hsize hshape hnext hc₁ (Nat.lt_trans hc₂ hm) hx

/-- One forest keeps what another holds from `lo` to below `hi`, but for the links of some roots. -/
structure Keeps (f g : Forest) (lo hi : Nat) (roots : List Nat) : Prop where
  size : f.size ≤ g.size
  shape : ∀ m, lo ≤ m → m < hi → g.shape m = f.shape m
  next : ∀ m, lo ≤ m → m < hi → m ∉ roots → g.next m = f.next m
  parent : ∀ m, lo ≤ m → m < hi → m ∉ roots → g.parent m = f.parent m

namespace Keeps

theorem refl (f : Forest) (lo hi : Nat) (roots : List Nat) : Keeps f f lo hi roots :=
  ⟨Nat.le_refl _, fun _ _ _ => rfl, fun _ _ _ _ => rfl, fun _ _ _ _ => rfl⟩

theorem trans {h : Forest} {roots : List Nat} (hfg : Keeps f g lo hi roots)
    (hgh : Keeps g h lo hi roots) : Keeps f h lo hi roots :=
  ⟨Nat.le_trans hfg.size hgh.size, fun m h₁ h₂ => (hgh.shape m h₁ h₂).trans (hfg.shape m h₁ h₂),
    fun m h₁ h₂ hm => (hgh.next m h₁ h₂ hm).trans (hfg.next m h₁ h₂ hm),
    fun m h₁ h₂ hm => (hgh.parent m h₁ h₂ hm).trans (hfg.parent m h₁ h₂ hm)⟩

/-- What is kept but for some roots is kept of any smaller interval but for the roots in it. -/
theorem mono {lo' hi' : Nat} {roots roots' : List Nat} (h : Keeps f g lo hi roots) (hlo : lo ≤ lo')
    (hhi : hi' ≤ hi) (hroots : ∀ m ∈ roots, lo' ≤ m → m < hi' → m ∈ roots') :
    Keeps f g lo' hi' roots' := by
  refine ⟨h.size, fun m h₁ h₂ => ?_, fun m h₁ h₂ hm => ?_, fun m h₁ h₂ hm => ?_⟩
  · exact h.shape m (Nat.le_trans hlo h₁) (Nat.lt_of_lt_of_le h₂ hhi)
  · exact h.next m (Nat.le_trans hlo h₁) (Nat.lt_of_lt_of_le h₂ hhi)
      fun hmem => hm (hroots m hmem h₁ h₂)
  · exact h.parent m (Nat.le_trans hlo h₁) (Nat.lt_of_lt_of_le h₂ hhi)
      fun hmem => hm (hroots m hmem h₁ h₂)

end Keeps

theorem Planted.kept (h : f.Planted lo n e) (hg : Keeps f g lo (n + 1) [n]) :
    g.Planted lo n e := by
  have hshape : ∀ m, lo ≤ m → m ≤ n → g.shape m = f.shape m := fun m hlo hn =>
    hg.shape m hlo (Nat.lt_succ_of_le hn)
  have hroot : ∀ c, c < n → c ∉ [n] := fun c hc hmem =>
    Nat.ne_of_lt hc (List.mem_singleton.mp hmem)
  have hnext : ∀ c, lo ≤ c → c < n → g.next c = f.next c := fun c hlo hc =>
    hg.next c hlo (Nat.lt_succ_of_lt hc) (hroot c hc)
  refine ⟨h.toPlot.frame hg.size (fun m hlo hn => by rw [hshape m hlo hn])
    (fun m hlo hn chain hm => by rwa [hshape m hlo hn]) hnext
    fun c hlo hc => hg.parent c hlo (Nat.lt_succ_of_lt hc) (hroot c hc), ?_⟩
  exact readUpTo_frame (fun m hlo hm => h.settled m hlo (Nat.le_of_lt_succ hm)) h.lt_size hg.size
    hg.shape (fun c hlo hc => hnext c hlo (Nat.lt_of_succ_lt_succ hc)) h.le (Nat.lt_succ_self n)
    h.reads

/-- Counts stay where a call gets its module. -/
theorem counted_setModule {module : String} {chain : Option NodeId → List NodeId} (hn : n < f.size)
    (h : (f.shape m).Counted chain) : ((f.setModule n module).shape m).Counted chain := by
  by_cases heq : m = n
  · subst heq
    rw [f.shape_setModule_self module hn]
    split
    · rename_i hshape
      rwa [hshape] at h
    · exact h
  · rwa [shape_setModule_of_ne module heq]

/-- **Giving the root of a plot its module marks the expression read there.** -/
theorem Planted.setModule (h : f.Planted lo n e) :
    (f.setModule n "method").Planted lo n e.asMethod := by
  have hsize : f.size ≤ (f.setModule n "method").size := Nat.le_of_eq (size_setModule ..).symm
  have hroot := h.settled n h.le (Nat.le_refl n)
  refine ⟨h.toPlot.frame hsize (fun m _ _ => slots_setModule ..)
    (fun m _ _ chain => counted_setModule h.lt_size) (fun c _ _ => next_setModule ..)
    fun c _ _ => parent_setModule .., ?_⟩
  -- Below the root nothing has changed, so only the shape of the root is read anew.
  have hbelow : ∀ c ∈ (f.shape n).slots.flatMap f.fill, ∀ x, f.readUpTo n c = some x →
      (f.setModule n "method").readUpTo n c = some x := by
    intro c hc x hx
    obtain ⟨hlo, hn⟩ := hroot.inside c hc
    exact readUpTo_frame (fun m hlo hm => h.settled m hlo (Nat.le_of_lt hm))
      (Nat.le_of_lt h.lt_size) hsize
      (fun m _ hm => shape_setModule_of_ne "method" (Nat.ne_of_lt hm))
      (fun c _ _ => next_setModule ..) hlo hn hx
  have hread := h.reads
  rw [readUpTo_succ] at hread ⊢
  exact readShape_setModule h.lt_size (readShape_transfer hread
    (hroot.fill_eq h.lt_size hsize fun c _ _ => next_setModule ..) hbelow)

/-! ## The places of a node just built -/

/-- A shape can be built over the given nodes: they are in its places, in order, and its chains and
counts are in order. -/
structure Over (f : Forest) (shape : Shape) (ns : List Nat) : Prop where
  fill : shape.slots.flatMap f.fill = ns
  lt_size : ∀ n ∈ ns, n < f.size
  chained : ∀ head, Slot.chain head ∈ shape.slots → f.Chained (some head) (f.chain (some head))
  counted : shape.Counted f.chain

namespace Over

variable {ns : List Nat}

theorem fill_eq (h : f.Over shape ns) (hsize : f.size ≤ g.size) (hnext : ∀ m, g.next m = f.next m) :
    ∀ s ∈ shape.slots, g.fill s = f.fill s
  | .one _, _ => rfl
  | .chain head, hs => (h.chained head hs).chain_congr
      (fun c hc => h.lt_size c (h.fill ▸ List.mem_flatMap.mpr ⟨_, hs, hc⟩)) (fun c _ => hnext c)
      hsize

/-- A shape stays over its nodes while successors are the same. -/
theorem congr (h : f.Over shape ns) (hsize : f.size ≤ g.size) (hnext : ∀ m, g.next m = f.next m) :
    g.Over shape ns := by
  have hfill := h.fill_eq hsize hnext
  refine ⟨(List.flatMap_congr hfill).trans h.fill,
    fun n hn => Nat.lt_of_lt_of_le (h.lt_size n hn) hsize, fun head hs => ?_, ?_⟩
  · have hchain : g.chain (some head) = f.chain (some head) := hfill _ hs
    rw [hchain]
    exact (h.chained head hs).congr fun c _ => hnext c
  · refine h.counted.congr ?_ fun head hs => hfill _ hs
    rw [chain_none, chain_none]

theorem children_push (h : f.Over shape ns) : (f.push shape).children f.size = ns := by
  have hpush := h.congr (g := f.push shape) (by rw [size_push]; exact Nat.le_succ _) (next_push _ _)
  rw [children, shape_push, if_pos rfl]
  exact hpush.fill

theorem add (h : f.Over shape ns) : (f.add shape).2.Over shape ns :=
  h.congr (by rw [size_add]; exact Nat.le_succ _) (next_add _ _)

/-- Building over nodes changes no parent but theirs. -/
theorem parent_add_of_notMem (h : f.Over shape ns) (hm : m ∉ ns) :
    (f.add shape).2.parent m = f.parent m := by
  rw [parent_add, h.children_push, if_neg fun hc => hm hc.1]

/-- **The node built over others is settled**, and they are its children. -/
theorem settled_add (h : f.Over shape ns) (hlo : ∀ n ∈ ns, lo ≤ n) :
    (f.add shape).2.children f.size = ns ∧ (f.add shape).2.Settled lo f.size := by
  have hadd := h.add
  have hshape : (f.add shape).2.shape f.size = shape := by rw [shape_add, if_pos rfl]
  have hchildren : (f.add shape).2.children f.size = ns := by
    rw [children, hshape]
    exact hadd.fill
  refine ⟨hchildren, ?_, ?_, hshape.symm ▸ hadd.chained, hshape.symm ▸ hadd.counted⟩
  · rw [hchildren]
    exact fun c hc => ⟨hlo c hc, h.lt_size c hc⟩
  · rw [hchildren]
    intro c hc
    rw [parent_add, h.children_push, if_pos ⟨hc, Nat.lt_succ_of_lt (h.lt_size c hc)⟩]

end Over

/-! ## Plots side by side -/

/-- Expressions planted side by side, from `lo` to below `hi`, each with its root. -/
inductive Tiled (f : Forest) : Nat → List (Nat × Expression) → Nat → Prop where
  | nil (lo : Nat) : Tiled f lo [] lo
  | cons {lo n hi : Nat} {e : Expression} {ps : List (Nat × Expression)}
      (first : f.Planted lo n e) (rest : Tiled f (n + 1) ps hi) : Tiled f lo ((n, e) :: ps) hi

namespace Tiled

variable {ps qs : List (Nat × Expression)}

theorem single (h : f.Planted lo n e) : f.Tiled lo [(n, e)] (n + 1) := .cons h (.nil _)

theorem planted : f.Tiled lo [(n, e)] hi → f.Planted lo n e ∧ hi = n + 1
  | .cons first (.nil _) => ⟨first, rfl⟩

theorem le (h : f.Tiled lo ps hi) : lo ≤ hi := by
  induction h with
  | nil => exact Nat.le_refl _
  | cons first _ ih => exact Nat.le_trans (Nat.le_succ_of_le first.le) ih

theorem append {mid : Nat} (h : f.Tiled lo ps mid) (h' : f.Tiled mid qs hi) :
    f.Tiled lo (ps ++ qs) hi := by
  induction h with
  | nil => exact h'
  | cons first _ ih => exact .cons first (ih h')

theorem mem_bounds (h : f.Tiled lo ps hi) : ∀ p ∈ ps, lo ≤ p.1 ∧ p.1 < hi := by
  induction h with
  | nil => exact fun _ hp => absurd hp List.not_mem_nil
  | cons first rest ih =>
    intro p hp
    have hle := first.le
    have hrest := rest.le
    rcases List.mem_cons.mp hp with rfl | hp
    · exact ⟨hle, hrest⟩
    · have := ih p hp
      omega

theorem root_bounds (h : f.Tiled lo ps hi) : ∀ n ∈ ps.map Prod.fst, lo ≤ n ∧ n < hi := by
  intro n hn
  obtain ⟨p, hp, rfl⟩ := List.mem_map.mp hn
  exact h.mem_bounds p hp

theorem nodup (h : f.Tiled lo ps hi) : (ps.map Prod.fst).Nodup := by
  induction h with
  | nil => exact List.nodup_nil
  | cons first rest ih =>
    rw [List.map_cons]
    refine List.nodup_cons.mpr ⟨fun hn => ?_, ih⟩
    exact absurd (rest.root_bounds _ hn).1 (Nat.not_succ_le_self _)

theorem reads (h : f.Tiled lo ps hi) {depth : Nat} (hdepth : hi ≤ depth) :
    ∀ p ∈ ps, f.readUpTo depth p.1 = some p.2 := by
  induction h with
  | nil => exact fun _ hp => absurd hp List.not_mem_nil
  | cons first rest ih =>
    intro p hp
    rcases List.mem_cons.mp hp with rfl | hp
    · exact readUpTo_mono (Nat.le_trans rest.le hdepth) first.reads
    · exact ih hdepth p hp

theorem settled (h : f.Tiled lo ps hi) : ∀ m, lo ≤ m → m < hi → f.Settled lo m := by
  induction h with
  | nil => exact fun m hlo hhi => absurd hhi (Nat.not_lt_of_le hlo)
  | @cons lo n hi e ps first rest ih =>
    intro m hlo hhi
    rcases Nat.lt_or_ge n m with hm | hm
    · exact (ih m hm hhi).mono (Nat.le_succ_of_le first.le)
    · exact first.settled m hlo hm

/-- The trees side by side are left one after the other. -/
theorem order (h : f.Tiled lo ps hi) :
    (ps.map Prod.fst).flatMap f.postorder = List.range' lo (hi - lo) := by
  induction h with
  | nil => simp
  | @cons lo n hi e ps first rest ih =>
    have hle := first.le
    have hrest := rest.le
    rw [List.map_cons, List.flatMap_cons, first.order, ih]
    have hlen : hi - lo = (n + 1 - lo) + (hi - (n + 1)) := by omega
    rw [hlen, ← List.range'_append_1]
    congr 2
    omega

/-- **What is planted stays while only links of the roots change.** -/
theorem kept (h : f.Tiled lo ps hi) (hg : Keeps f g lo hi (ps.map Prod.fst)) :
    g.Tiled lo ps hi := by
  induction h with
  | nil => exact .nil _
  | @cons lo n hi e ps first rest ih =>
    have hlo := first.le
    have hhi := rest.le
    -- The other roots come after the first plot, and the first root before the others.
    refine .cons (first.kept (hg.mono (Nat.le_refl lo) hhi fun m hm _ hlt => ?_))
      (ih (hg.mono (Nat.le_succ_of_le hlo) (Nat.le_refl hi) fun m hm hle _ => ?_))
    · rcases List.mem_cons.mp hm with rfl | hm
      · exact List.mem_singleton_self _
      · exact absurd (rest.root_bounds m hm).1 (Nat.not_le_of_lt hlt)
    · rcases List.mem_cons.mp hm with rfl | hm
      · exact absurd hle (Nat.not_succ_le_self _)
      · exact hm

/-! ## A node built over plots -/

/-- Building over the roots of plots leaves the plots. -/
theorem kept_add (h : f.Tiled lo ps f.size) (hover : f.Over shape (ps.map Prod.fst)) :
    (f.add shape).2.Tiled lo ps f.size := by
  refine h.kept ⟨by rw [size_add]; exact Nat.le_succ _, fun m _ hm => ?_,
    fun m _ _ _ => next_add .., fun m _ _ hm => hover.parent_add_of_notMem hm⟩
  rw [shape_add, if_neg (Nat.ne_of_lt hm)]

/-- **A node built over the roots of plots side by side is the root of one plot**, and what is read
there is its shape over what is read at the roots. -/
theorem add (h : f.Tiled lo ps f.size) (hover : f.Over shape (ps.map Prod.fst))
    (hread : ∀ read : NodeId → Option Expression, (∀ p ∈ ps, read p.1 = some p.2) →
      f.readShape read shape = some e) :
    (f.add shape).2.Planted lo f.size e := by
  have htiled := h.kept_add hover
  obtain ⟨hchildren, hroot⟩ := hover.settled_add fun n hn => (h.root_bounds n hn).1
  have hsettled : ∀ m, lo ≤ m → m ≤ f.size → (f.add shape).2.Settled lo m := fun m hlo hm =>
    (Nat.lt_or_eq_of_le hm).elim (htiled.settled m hlo) fun heq => heq ▸ hroot
  have hgrounded := grounded_of_settled hsettled f.size h.le (Nat.le_refl _)
  have hsize : f.size < (f.add shape).2.size := by rw [size_add]; exact Nat.lt_succ_self _
  refine ⟨⟨h.le, hsize, hsettled, ?_⟩, ?_⟩
  · have hle := h.le
    have hlen : f.size + 1 - lo = f.size - lo + 1 := by omega
    have hlast : lo + (f.size - lo) = f.size := by omega
    rw [hgrounded.postorder_eq, hchildren, htiled.order, hlen, List.range'_concat, Nat.one_mul,
      hlast]
  · rw [readUpTo_succ, shape_add, if_pos rfl]
    exact readShape_transfer (hread _ (htiled.reads (Nat.le_refl _)))
      (hover.fill_eq (Nat.le_of_lt hsize) (next_add _ _)) fun _ _ _ hx => hx

end Tiled

end Forest

end ProbeScript
