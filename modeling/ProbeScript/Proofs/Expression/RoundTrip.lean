import ProbeScript.Proofs.Expression.Building

/-!
# Proofs/Expression/RoundTrip — what is built reads back in normal form

The induction is on the expression.  Each construction is minted over what was built for the parts,
and lists are built one after the other and then joined, so that a construction meets single roots
and chains of roots and nothing else.
-/

namespace ProbeScript

open Forest Workshop

variable {w : Workshop} {f : Forest} {e : Expression} {es : List Expression}

/-! ## Integers -/

theorem exists_of_isOk {ε α : Type} {x : Except ε α} (h : x.isOk = true) : ∃ a, x = .ok a := by
  cases x with
  | ok a => exact ⟨a, rfl⟩
  | error => cases h

theorem Number.toInt?_of_safeInt? {x : Number} {n : Int} (h : x.safeInt? = some n) :
    x.toInt? = some n := (Option.filter_eq_some_iff.mp h).1

/-- A literal that is accepted stands for its integer. -/
theorem Literal.integer_of_value? {literal : Literal} {n : Int} (h : literal.value? = .ok n) :
    literal.integer = n := by
  cases literal with
  | big m => exact Except.ok.inj h
  | number x =>
    rw [value?] at h
    split at h
    · rename_i hsafe
      rw [integer, Number.toInt?_of_safeInt? hsafe]
      exact Except.ok.inj h
    · cases h

theorem Workshop.toInt?_of_unrollCount? {x : Number} {n : Nat} (h : unrollCount? x = .ok n) :
    x.toInt? = some n := by
  rw [unrollCount?] at h
  split at h
  · rename_i hsafe
    cases h
    exact Number.toInt?_of_safeInt? hsafe
  · cases h

/-! ## What is built for what was left out -/

namespace Workshop

theorem sprouted_buildRecord_none (w : Workshop) :
    Sprouted w.forest (.record [.str ""]) (w.buildRecord none) := by
  have hfield : Sprouted w.forest (.str "") (w.mint (.str "")) :=
    sprouted_leaf rfl trivial fun _ => rfl
  have hchained := Chained.single hfield.free.next
  have hchain := hchained.chain_eq hfield.grafted.root_lt
  have hstrung : Strung w.forest [.str ""]
      (some (w.mint (.str "")).1, (w.mint (.str "")).2) :=
    ⟨[(_, .str "")], rfl, hfield.grafted, hchained⟩
  refine sprouted_chain hstrung (show (Shape.record _ _).slots = _ from rfl) ?_ fun read hread => ?_
  · exact (congrArg List.length hchain).symm
  · exact congrArg (Option.map Expression.record) hread

theorem sprouted_map {key : NodeId} (h : Sprouted f e (key, w)) (name : String) :
    Sprouted f (.map name (some e)) (w.mint (.map name key)) :=
  sprouted_one h rfl trivial fun read hread => by rw [readShape, hread, Option.map_some]

/-- Something was built, so the chain has a first node. -/
theorem Strung.exists_head {joined : Option NodeId × Workshop}
    (h : Strung f (e :: es) joined) : ∃ head, joined.1 = some head := by
  obtain ⟨ps, hps, -, hchained⟩ := h
  cases ps with
  | nil => cases hps
  | cons p ps => exact ⟨p.1, hchained.head_eq⟩

end Workshop

/-! ## Building -/

namespace Expression

mutual

/-- **A sound expression is built, to the free root of one plot, and reads in normal form.** -/
theorem exists_build : ∀ (e : Expression) (w : Workshop), e.isSound →
    ∃ built, e.build w = .ok built ∧ Sprouted w.forest e.normal built
  | str value, w, _ => ⟨_, rfl, sprouted_leaf rfl trivial fun _ => rfl⟩
  | int literal, w, h => by
    obtain ⟨n, hn⟩ := exists_of_isOk h
    refine ⟨w.mint (.int (toWord n)), by rw [build, construct, hn]; rfl, ?_⟩
    rw [normal, Literal.integer_of_value? hn]
    exact sprouted_leaf rfl trivial fun _ => rfl
  | record args, w, h => by
    obtain ⟨⟨head, w₁⟩, hjoin, hargs⟩ := exists_join (exists_buildAll args w h)
    cases args with
    | nil => exact ⟨w.buildRecord none, rfl, sprouted_buildRecord_none w⟩
    | cons arg args =>
      obtain ⟨first, rfl⟩ := hargs.exists_head
      refine ⟨w₁.mint (.record first (w₁.forest.chain (some first)).length), by
        rw [build, hjoin]; rfl, ?_⟩
      exact sprouted_chain hargs rfl rfl fun read hread => by
        rw [readShape, hread, Option.map_some, normal, normalAll]
  | map name none, w, _ =>
    ⟨w.buildMap name none, rfl, sprouted_map (sprouted_buildRecord_none w) name⟩
  | map name (some key), w, h => by
    obtain ⟨⟨k, w₁⟩, hbuild, hk⟩ := exists_build key w h
    exact ⟨w₁.mint (.map name k), by rw [build, hbuild]; rfl, sprouted_map hk name⟩
  | var name, w, _ => ⟨_, rfl, sprouted_leaf rfl trivial fun _ => rfl⟩
  | negation operand, w, h => by
    obtain ⟨⟨c, w₁⟩, hbuild, hc⟩ := exists_build operand w h
    refine ⟨w₁.mint (.negation c), by rw [build, hbuild]; rfl, ?_⟩
    exact sprouted_one hc rfl trivial fun read hread => by
      rw [readShape, hread, Option.map_some, normal]
  | binop left operator right, w, h => by
    obtain ⟨hleft, hright⟩ := Bool.and_eq_true_iff.mp h
    obtain ⟨⟨l, w₁⟩, hbuild, hl⟩ := exists_build left w hleft
    obtain ⟨⟨r, w₂⟩, hbuild', hr⟩ := exists_build right w₁ hright
    refine ⟨w₂.mint (.binop operator l r), by
      simp only [build, hbuild, hbuild', bind, Except.bind]; rfl, ?_⟩
    exact sprouted_two hl hr rfl trivial fun read hl hr => by
      rw [readShape, hl, hr, normal]; rfl
  | assign target none, w, h => by
    obtain ⟨⟨t, w₁⟩, hbuild, ht⟩ := exists_build target w h
    refine ⟨w₁.mint (.assign t none), by rw [build, hbuild]; rfl, ?_⟩
    exact sprouted_one ht rfl trivial fun read hread => by
      rw [readShape, hread, Option.map_some, normal]
  | assign target (some value), w, h => by
    obtain ⟨htarget, hvalue⟩ := Bool.and_eq_true_iff.mp h
    obtain ⟨⟨t, w₁⟩, hbuild, ht⟩ := exists_build target w htarget
    obtain ⟨⟨v, w₂⟩, hbuild', hv⟩ := exists_build value w₁ hvalue
    refine ⟨w₂.mint (.assign t (some v)), by
      simp only [build, hbuild, hbuild', bind, Except.bind]; rfl, ?_⟩
    exact sprouted_two ht hv rfl trivial fun read ht hv => by
      rw [readShape, ht, hv, normal]; rfl
  | method target invocation, w, h => by
    obtain ⟨htarget, hinvocation⟩ := Bool.and_eq_true_iff.mp h
    obtain ⟨⟨t, w₁⟩, hbuild, ht⟩ := exists_build target w htarget
    obtain ⟨⟨i, w₂⟩, hbuild', hi⟩ := exists_build invocation w₁ hinvocation
    refine ⟨w₂.buildMethod t i, by
      simp only [build, hbuild, hbuild', bind, Except.bind]; rfl, ?_⟩
    -- The call is marked before the node over it is minted.
    have hmarked := ht.grafted.setModule hi.grafted
    refine sprouted_ones (w := { w₂ with forest := w₂.forest.setModule i "method" }) hmarked rfl
      trivial fun read hread => ?_
    rw [readShape, hread _ List.mem_cons_self,
      hread _ (List.mem_cons_of_mem _ List.mem_cons_self), normal]
    rfl
  | call module function args, w, h => by
    obtain ⟨⟨head, w₁⟩, hjoin, hargs⟩ := exists_join (exists_buildAll args w h)
    refine ⟨w₁.mint (.call module function head (w₁.forest.chain head).length), by
      rw [build, hjoin]; rfl, ?_⟩
    exact sprouted_chain hargs rfl rfl fun read hread => by
      rw [readShape, hread, Option.map_some, normal]
  | ifElse condition thens elses, w, h => by
    obtain ⟨h, helses⟩ := Bool.and_eq_true_iff.mp h
    obtain ⟨hcondition, hthens⟩ := Bool.and_eq_true_iff.mp h
    obtain ⟨⟨c, w₁⟩, hbuild, hc⟩ := exists_build condition w hcondition
    obtain ⟨⟨thenHead, w₂⟩, hjoin, ps, hps, hgrafted, hchained⟩ :=
      exists_join (exists_buildAll thens w₁ hthens)
    obtain ⟨⟨elseHead, w₃⟩, hjoin', qs, hqs, hgrafted', hchained'⟩ :=
      exists_join (exists_buildAll elses w₂ helses)
    refine ⟨w₃.mint (.ifElse c thenHead (w₃.forest.chain thenHead).getLast? elseHead), by
      simp only [build, hbuild, hjoin, hjoin', bind, Except.bind]; rfl, ?_⟩
    refine sprouted_mint [(c, _)] ps qs (hc.grafted.trans (hgrafted.trans hgrafted'))
      (hgrafted'.chained hchained hgrafted.root_lt) hchained' rfl rfl
      fun read hread hthen helse => ?_
    rw [readShape, hread _ List.mem_cons_self, hthen, helse, hps, hqs]
    rfl
  | unroll count statements, w, h => by
    obtain ⟨hcount, hstatements⟩ := Bool.and_eq_true_iff.mp h
    obtain ⟨n, hn⟩ := exists_of_isOk hcount
    obtain ⟨⟨head, w₁⟩, hjoin, hbody⟩ := exists_join (exists_buildAll statements w hstatements)
    refine ⟨w₁.mint (.unroll n head), by
      rw [build, hjoin]; exact congrArg (Except.map _) hn, ?_⟩
    exact sprouted_chain hbody rfl trivial fun read hread => by
      rw [readShape, hread, Option.map_some, normal, toInt?_of_unrollCount? hn]; rfl
  | breakLoop, w, _ => ⟨_, rfl, sprouted_leaf rfl trivial fun _ => rfl⟩
  | continueLoop, w, _ => ⟨_, rfl, sprouted_leaf rfl trivial fun _ => rfl⟩
  | returnProbe, w, _ => ⟨_, rfl, sprouted_leaf rfl trivial fun _ => rfl⟩
  | probe spec none statements, w, h => by
    obtain ⟨⟨head, w₁⟩, hjoin, hbody⟩ := exists_join (exists_buildAll statements w h)
    refine ⟨w₁.mint (.probe spec none head), by rw [build, hjoin]; rfl, ?_⟩
    exact sprouted_chain hbody rfl trivial fun read hread => by
      rw [readShape, hread, Option.map_some, normal]
  | probe spec (some predicate) statements, w, h => by
    obtain ⟨hpredicate, hstatements⟩ := Bool.and_eq_true_iff.mp h
    obtain ⟨⟨p, w₁⟩, hbuild, hp⟩ := exists_build predicate w hpredicate
    obtain ⟨⟨head, w₂⟩, hjoin, ps, hps, hgrafted, hchained⟩ :=
      exists_join (exists_buildAll statements w₁ hstatements)
    refine ⟨w₂.mint (.probe spec (some p) head), by
      simp only [build, hbuild, hjoin, bind, Except.bind]; rfl, ?_⟩
    have hslots : (Shape.probe spec (some p) head).slots
        = [.one p] ++ ((head.map Slot.chain).toList ++ []) := by
      rw [List.append_nil]
      rfl
    refine sprouted_mint [(p, _)] ps [] (hp.grafted.trans (by simpa using hgrafted)) hchained .nil
      hslots trivial fun read hread hstatements _ => ?_
    rw [readShape, hread _ List.mem_cons_self, hstatements, hps]
    rfl
  | script probes, w, h => by
    obtain ⟨⟨head, w₁⟩, hjoin, hprobes⟩ := exists_join (exists_buildAll probes w h)
    refine ⟨w₁.mint (.script head), by rw [build, hjoin]; rfl, ?_⟩
    exact sprouted_chain hprobes rfl trivial fun read hread => by
      rw [readShape, hread, Option.map_some, normal]
  | stackValue, w, _ => ⟨_, rfl, sprouted_leaf rfl trivial fun _ => rfl⟩

/-- **Sound expressions are built in order**, to the free roots of plots side by side. -/
theorem exists_buildAll : ∀ (es : List Expression) (w : Workshop), areSound es →
    ∃ built, buildAll es w = .ok built ∧ Seeded w.forest (normalAll es) built
  | [], w, _ => ⟨_, rfl, .nil w⟩
  | e :: es, w, h => by
    obtain ⟨he, hes⟩ := Bool.and_eq_true_iff.mp h
    obtain ⟨⟨n, w₁⟩, hbuild, hn⟩ := exists_build e w he
    obtain ⟨⟨ns, w₂⟩, hbuildAll, hns⟩ := exists_buildAll es w₁ hes
    refine ⟨(n :: ns, w₂), ?_, .cons hn hns⟩
    simp only [buildAll, hbuild, hbuildAll, bind, Except.bind]

end

end Expression

/-! ## What was built is a tree -/

namespace Forest

variable {lo n : Nat} {g : Forest}

/-- The nodes below a root are met once each, and every other one has as its parent just the node
it lies right below. -/
structure Tree (f : Forest) (root : NodeId) : Prop where
  grounded : f.Grounded root
  nodup : (f.preorder root).Nodup
  top : f.parent root = none
  parent : ∀ c ∈ f.preorder root, c ≠ root → ∃ p ∈ f.preorder root,
    f.parent c = some p ∧ ∀ q ∈ f.preorder root, c ∈ f.children q ↔ q = p

theorem Plot.tree (h : f.Plot lo n) (htop : f.parent n = none) : f.Tree n := by
  refine ⟨h.grounded, ?_, htop, fun c hc hne => ?_⟩
  · rw [← h.grounded.postorder_perm.nodup_iff, h.order]
    exact List.nodup_range'
  · have hparent : ∀ q ∈ f.preorder n, c ∈ f.children q → f.parent c = some q := fun q hq hcq =>
      (h.settled q (h.mem_preorder_iff.mp hq).1 (h.mem_preorder_iff.mp hq).2).parent c hcq
    obtain ⟨p, hp, hcp⟩ := h.grounded.exists_above hc hne
    refine ⟨p, hp, hparent p hp hcp, fun q hq => ⟨fun hcq => ?_, fun hqp => hqp ▸ hcp⟩⟩
    exact Option.some.inj ((hparent q hq hcq).symm.trans (hparent p hp hcp))

/-- Every node below one that is read is read, and its children are its parts. -/
theorem Grounded.reads_parts (h : f.Grounded n) (hread : f.readBack n = some e) :
    ∀ m ∈ f.preorder n, ∃ x, f.readBack m = some x ∧
      (f.children m).mapM f.readBack = some x.parts := by
  have hparts : ∀ m x, f.readBack m = some x → (f.children m).mapM f.readBack = some x.parts :=
    fun m x hx => mapM_transfer (mapM_children hx) fun c _ y hy =>
      readUpTo_mono (Nat.le_succ f.size) hy
  have hall : ∀ m ∈ f.preorder n, ∃ x, f.readBack m = some x := by
    refine h.forall_preorder ⟨e, hread⟩ fun m hm c hc => ?_
    obtain ⟨x, hx⟩ := hm
    exact exists_of_mapM (hparts m x hx) c hc
  intro m hm
  obtain ⟨x, hx⟩ := hall m hm
  exact ⟨x, hx, hparts m x hx⟩

theorem Keeps.node_eq (h : Keeps f g 0 f.size []) {m : Nat} (hm : m < f.size) :
    g.node m = f.node m := by
  have hshape : (g.node m).shape = (f.node m).shape := h.shape m (Nat.zero_le m) hm
  have hparent : (g.node m).parent = (f.node m).parent :=
    h.parent m (Nat.zero_le m) hm List.not_mem_nil
  have hnext : (g.node m).next = (f.node m).next := h.next m (Nat.zero_le m) hm List.not_mem_nil
  rw [← show (⟨(g.node m).shape, (g.node m).parent, (g.node m).next⟩ : Node) = g.node m from rfl,
    hshape, hparent, hnext]

end Forest

namespace Expression

/-- **A sound expression can be built in any workshop, and reads back in normal form** from the root
of a tree of new nodes, the children of each being its parts in order.  The counts kept in the nodes
are those of their chains, and no node that was there is changed. -/
theorem build_reads_normal (e : Expression) (w : Workshop) (h : e.isSound) :
    ∃ root w', e.build w = .ok (root, w') ∧ w'.forest.readBack root = some e.normal ∧
      w'.forest.Tree root ∧
      (∀ m ∈ w'.forest.preorder root, (w'.forest.shape m).Counted w'.forest.chain ∧
        ∃ x, w'.forest.readBack m = some x ∧
          (w'.forest.children m).mapM w'.forest.readBack = some x.parts) ∧
      (∀ m, m ∈ w'.forest.preorder root ↔ w.forest.size ≤ m ∧ m < w'.forest.size) ∧
      ∀ m < w.forest.size, w'.forest.node m = w.forest.node m := by
  obtain ⟨⟨root, w'⟩, hbuild, hgrafted, hfree⟩ := exists_build e w h
  obtain ⟨hplanted, hsize⟩ := hgrafted.tiled.planted
  have hread : w'.forest.readBack root = some e.normal :=
    readUpTo_mono (Nat.succ_le_succ (Nat.le_of_lt hplanted.lt_size)) hplanted.reads
  have hmem : ∀ m, m ∈ w'.forest.preorder root ↔ w.forest.size ≤ m ∧ m < w'.forest.size :=
    fun m => by rw [hplanted.mem_preorder_iff, hsize, Nat.lt_succ_iff]
  refine ⟨root, w', hbuild, hread, hplanted.tree hfree.parent, fun m hm => ⟨?_, ?_⟩, hmem,
    fun m => hgrafted.keeps.node_eq⟩
  · obtain ⟨hlo, hn⟩ := hplanted.mem_preorder_iff.mp hm
    exact (hplanted.settled m hlo hn).counted
  · exact hplanted.grounded.reads_parts hread m hm

/-- A probe that counts the calls of `f`, with no key given to its map, no fields to a record, and
an integer beyond the words. -/
def tally : Expression :=
  script [probe "f" (some (binop (var "x") .eq (int (.big 18446744073709551615))))
    [method (map "calls" none) (call none "count" [record []]),
      ifElse (var "x") [unroll 2 [breakLoop], returnProbe] []]]

theorem build_reads_normal_tally : tally.isSound = true ∧
    ∃ root w', tally.build {} = .ok (root, w') ∧ w'.forest.Tree root ∧
      w'.forest.readBack root = some (script
        [probe "f" (some (binop (var "x") .eq (int (.big (-1)))))
          [method (map "calls" (some (record [str ""])))
              (call (some "method") "count" [record [str ""]]),
            ifElse (var "x") [unroll 2 [breakLoop], returnProbe] []]]) := by
  obtain ⟨root, w', hbuild, hread, htree, -⟩ := build_reads_normal tally {} rfl
  exact ⟨rfl, root, w', hbuild, htree, hread⟩

end Expression

end ProbeScript
