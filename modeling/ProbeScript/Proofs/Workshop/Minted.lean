import ProbeScript.Proofs.Workshop.Reached

/-!
# Proofs/Workshop/Minted — a construction is a sequence of mints

Whatever is asked for, a construction mints the nodes of its receipts one after the other, and marks
a call at most in between (`mints_of_construct`).  So what a mint keeps is kept by all
constructions, and what it does to the arena is done once for each receipt.
-/

namespace ProbeScript.Workshop

open Forest

variable {w w' : Workshop} {ns : List NodeId} {n m : NodeId}

/-- Nodes minted one after the other, the latest first, lead from one workshop to another. -/
inductive Mints (w : Workshop) : List NodeId → Workshop → Prop where
  | start : Mints w [] w
  | mark {ns : List NodeId} {w' : Workshop} (h : Mints w ns w') (n : NodeId) (module : String) :
      Mints w ns (w'.withForest (w'.forest.setModule n module))
  | mint {ns : List NodeId} {w' : Workshop} (h : Mints w ns w') (shape : Shape) :
      Mints w (w'.forest.size :: ns) (w'.mint shape).2

/-! ## Constructions -/

theorem mints_of_mint {shape : Shape} (h : w.mint shape = (n, w')) :
    Mints w [w.forest.size] w' := by
  obtain rfl : (w.mint shape).2 = w' := congrArg Prod.snd h
  exact .mint .start shape

theorem mints_buildRecord_none (w : Workshop) :
    Mints w [w.forest.size + 1, w.forest.size] (w.buildRecord none).2 := by
  have hmints := Mints.mint (.mint (w := w) .start (.str "")) (.record (w.mint (.str "")).1 1)
  rw [forest_mint, size_add] at hmints
  exact hmints

theorem mints_buildMap_none (w : Workshop) (name : String) :
    Mints w [w.forest.size + 2, w.forest.size + 1, w.forest.size] (w.buildMap name none).2 := by
  have hmints := Mints.mint w.mints_buildRecord_none (.map name (w.buildRecord none).1)
  rwa [size_buildRecord_none] at hmints

/-- **A construction mints the nodes of its receipts**, one after the other. -/
theorem mints_of_construct {c : Construct} (h : w.construct c = .ok (n, w')) :
    Mints w ((c.receipts w.forest).map Receipt.node) w' := by
  cases c with
  | int literal =>
    obtain ⟨k, -, hk⟩ := exists_of_map_eq_ok h
    exact mints_of_mint hk
  | record args =>
    cases args with
    | none =>
      obtain rfl : (w.buildRecord none).2 = w' := congrArg Prod.snd (Except.ok.inj h)
      exact w.mints_buildRecord_none
    | some head => exact mints_of_mint (show w.mint (.record head _) = _ from Except.ok.inj h)
  | map name key =>
    cases key with
    | none =>
      obtain rfl : (w.buildMap name none).2 = w' := congrArg Prod.snd (Except.ok.inj h)
      exact w.mints_buildMap_none name
    | some key => exact mints_of_mint (show w.mint (.map name key) = _ from Except.ok.inj h)
  | method target invocation =>
    obtain rfl : (w.buildMethod target invocation).2 = w' := congrArg Prod.snd (Except.ok.inj h)
    have hmints := Mints.mint (.mark (w := w) .start invocation "method")
      (.method target invocation)
    rw [withForest, size_setModule] at hmints
    exact hmints
  | unroll count statements =>
    obtain ⟨k, -, hk⟩ := exists_of_map_eq_ok h
    exact mints_of_mint hk
  | str | var | negation | binop | assign | call | ifElse | breakLoop | continueLoop | returnProbe
  | probe | script | stackValue => exact mints_of_mint (Except.ok.inj h)

/-! ## What a mint does -/

/-- A node that is given no record is only added to the forest and the arena. -/
theorem mint_of_none {shape : Shape} (h : firstRecord? shape = none) :
    (w.mint shape).2 = { w with
      forest := (w.forest.add shape).2, arena := w.arena.insert w.forest.size none } := by
  simp only [mint, add_eq, h]

theorem mint_of_some {shape : Shape} {record : Record} (h : firstRecord? shape = some record) :
    (w.mint shape).2 = {
      forest := (w.forest.add shape).2
      ledger := (w.ledger.create record).2.attach w.forest.size w.ledger.records.size
      arena := w.arena.insert w.forest.size (some w.ledger.records.size) } := by
  simp only [mint, add_eq, h]
  rfl

/-- A mint puts the new node into the arena, along with a record if nodes of its kind own theirs. -/
theorem exists_arena_mint (w : Workshop) (shape : Shape) :
    ∃ record : Option RecordId, (w.mint shape).2.arena = w.arena.insert w.forest.size record ∧
      record.isSome = shape.kind.ownsRecord := by
  cases howns : shape.kind.ownsRecord with
  | true => exact ⟨some w.ledger.records.size, by rw [mint_of_some (if_pos howns)], rfl⟩
  | false => exact ⟨none, by rw [mint_of_none (if_neg (by simp [howns]))], rfl⟩

end ProbeScript.Workshop
