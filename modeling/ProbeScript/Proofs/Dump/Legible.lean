import Mathlib.Data.List.Basic
import ProbeScript.Dump.Line
import ProbeScript.Proofs.Number.Numeral
import ProbeScript.Proofs.Text.Collated

/-!
# Proofs/Dump/Legible — what can be read off the line of a node

Of all that is shown in a line only names and specifications stand there as they are; string
literals are escaped, and everything else is written by the program itself.  So a line has no line
end in it unless such a text has one (`Ledger.newline_notMem_line`), and its last opening bracket
begins the note, which starts with the kind of the node (`Ledger.kind_eq_of_line_eq`).
-/

namespace ProbeScript

/-! ## Splitting a list at an element -/

/-- Two splits of a list at the same element are one, unless the element occurs again in between. -/
theorem append_cons_cases {α : Type} {a : α} {x₁ x₂ z₁ z₂ : List α}
    (h : x₁ ++ a :: z₁ = x₂ ++ a :: z₂) :
    x₁ = x₂ ∧ z₁ = z₂ ∨ a ∈ x₂ ∧ a ∈ z₁ ∨ a ∈ x₁ ∧ a ∈ z₂ := by
  rcases List.append_eq_append_iff.mp h with ⟨ys, rfl, hz⟩ | ⟨ys, rfl, hz⟩
  · cases ys with
    | nil => exact .inl ⟨(List.append_nil _).symm, (List.cons.inj hz).2⟩
    | cons b ys =>
      obtain ⟨rfl, rfl⟩ := List.cons.inj hz
      exact .inr (.inl ⟨by simp, by simp⟩)
  · cases ys with
    | nil => exact .inl ⟨List.append_nil _, (List.cons.inj hz).2.symm⟩
    | cons b ys =>
      obtain ⟨rfl, rfl⟩ := List.cons.inj hz
      exact .inr (.inr ⟨by simp, by simp⟩)

/-- Two splits of a list at the first place of an element are one. -/
theorem append_cons_inj_of_notMem_left {α : Type} {a : α} {x₁ x₂ z₁ z₂ : List α} (h₁ : a ∉ x₁)
    (h₂ : a ∉ x₂) (h : x₁ ++ a :: z₁ = x₂ ++ a :: z₂) : x₁ = x₂ ∧ z₁ = z₂ := by
  rcases append_cons_cases h with h | ⟨h, -⟩ | ⟨h, -⟩
  · exact h
  · exact absurd h h₂
  · exact absurd h h₁

/-- Two splits of a list at the last place of an element are one. -/
theorem append_cons_inj_of_notMem_right {α : Type} {a : α} {x₁ x₂ z₁ z₂ : List α} (h₁ : a ∉ z₁)
    (h₂ : a ∉ z₂) (h : x₁ ++ a :: z₁ = x₂ ++ a :: z₂) : x₁ = x₂ ∧ z₁ = z₂ := by
  rcases append_cons_cases h with h | ⟨-, h⟩ | ⟨-, h⟩
  · exact h
  · exact absurd h h₁
  · exact absurd h h₂

/-! ## String literals -/

namespace Text

theorem isPrintable_hexDigits (b : UInt8) : ∀ c ∈ hexDigits b, IsPrintable c := by
  have hall : ∀ d : Fin 16, IsPrintable d.val.digitChar := by decide
  have hhigh : b.toNat / 16 < 16 := Nat.div_lt_of_lt_mul b.toNat_lt
  have hlow : b.toNat % 16 < 16 := Nat.mod_lt _ (by decide)
  exact List.forall_mem_cons.mpr
    ⟨hall ⟨_, hhigh⟩, List.forall_mem_singleton.mpr (hall ⟨_, hlow⟩)⟩

/-- A byte is the code of a character. -/
theorem toNat_ofNat_toNat (b : UInt8) : (Char.ofNat b.toNat).toNat = b.toNat := by
  have hvalid : b.toNat.isValidChar := .inl (Nat.lt_trans b.toNat_lt (by decide))
  rw [Char.ofNat, dif_pos hvalid]
  rfl

theorem isPrintable_escapeByte (b : UInt8) : ∀ c ∈ escapeByte b, IsPrintable c := by
  rw [escapeByte]
  split
  case isTrue hb =>
    rw [isPrintable, Bool.and_eq_true, decide_eq_true_iff, decide_eq_true_iff,
      UInt8.le_iff_toNat_le, UInt8.le_iff_toNat_le] at hb
    rw [List.forall_mem_singleton, IsPrintable, toNat_ofNat_toNat]
    exact hb
  case isFalse =>
    have hshort {c : Char} (hc : IsPrintable c) : ∀ d ∈ ['\\', c], IsPrintable d :=
      List.forall_mem_cons.mpr ⟨by decide, List.forall_mem_singleton.mpr hc⟩
    split
    · exact hshort (by decide)
    split
    · exact hshort (by decide)
    split
    · exact hshort (by decide)
    · exact List.forall_mem_cons.mpr
        ⟨by decide, List.forall_mem_cons.mpr ⟨by decide, isPrintable_hexDigits b⟩⟩

/-- **A string literal is printable**, whatever the string is. -/
theorem isPrintable_quoted (s : String) : ∀ c ∈ (quoted s).toList, IsPrintable c := by
  have hquote : IsPrintable '"' := by decide
  rw [quoted, String.toList_ofList, quote]
  refine List.forall_mem_cons.mpr ⟨hquote, List.forall_mem_append.mpr ⟨?_, ?_⟩⟩
  · exact List.forall_mem_flatMap.mpr fun b _ => isPrintable_escapeByte b
  · exact List.forall_mem_singleton.mpr hquote

end Text

/-! ## What a node is -/

namespace Shape

/-- The texts of a shape that its line shows as they are. -/
def verbatim : Shape → List String
  | probe spec _ _ => [spec]
  | map name _ => [name]
  | var name => [name]
  | call module function _ _ => module.toList ++ [function]
  | _ => []

/-- Whether the texts of a shape that its line shows as they are have no line end. -/
def IsOneLine (shape : Shape) : Prop := ∀ text ∈ shape.verbatim, '\n' ∉ text.toList

instance (shape : Shape) : Decidable shape.IsOneLine :=
  inferInstanceAs (Decidable (∀ text ∈ shape.verbatim, '\n' ∉ text.toList))

end Shape

theorem notMem_append {c : Char} {s t : String} :
    c ∉ (s ++ t).toList ↔ c ∉ s.toList ∧ c ∉ t.toList := by
  rw [String.toList_append, List.mem_append, not_or]

theorem forall_mem_append {P : Char → Prop} {s t : String} :
    (∀ c ∈ (s ++ t).toList, P c) ↔ (∀ c ∈ s.toList, P c) ∧ ∀ c ∈ t.toList, P c := by
  rw [String.toList_append, List.forall_mem_append]

/-- What all characters of a given text are can be computed. -/
theorem forall_mem_of_all {P : Char → Prop} [DecidablePred P] {cs : List Char}
    (h : cs.all (P ·) = true) : ∀ c ∈ cs, P c := fun c hc =>
  of_decide_eq_true (List.all_eq_true.mp h c hc)

theorem toList_append₄ (s t u v : String) :
    (s ++ t ++ u ++ v).toList = s.toList ++ (t.toList ++ (u.toList ++ v.toList)) := by
  simp only [String.toList_append, List.append_assoc]

theorem Kind.isNumeral_name (k : Kind) : Number.IsNumeral k.name := by
  cases k <;> decide

theorem isNumeral_wordText (n : Int) : Number.IsNumeral (wordText n) := by
  rw [wordText]
  split
  · decide
  · exact .append (by decide) (Number.isNumeral_hexNat _)

/-- **What a node is takes no line end to say**, unless there is one in a text shown as it is. -/
theorem Shape.newline_notMem_summary {shape : Shape} (h : shape.IsOneLine) {summary : String}
    (hsummary : shape.summary = .ok summary) : '\n' ∉ summary.toList := by
  have hkind : '\n' ∉ ("<" ++ shape.kind.name ++ ">").toList :=
    notMem_append.mpr ⟨notMem_append.mpr ⟨by decide, shape.kind.isNumeral_name.notMem (by decide)⟩,
      by decide⟩
  cases shape with
  | probe spec _ _ | map name _ | var name =>
    cases hsummary
    exact h _ List.mem_cons_self
  | assign _ _ =>
    cases hsummary
    decide
  | binop operator _ _ =>
    cases hsummary
    cases operator <;> decide
  | unroll count _ =>
    cases hsummary
    exact notMem_append.mpr ⟨notMem_append.mpr
      ⟨by decide, (Number.isNumeral_toString_nat count).notMem (by decide)⟩, by decide⟩
  | call module function _ _ =>
    cases hsummary
    have hmodule : '\n' ∉ (module.getD "<auto>").toList := by
      cases module with
      | none => decide
      | some module => exact h module List.mem_cons_self
    exact notMem_append.mpr ⟨notMem_append.mpr ⟨hmodule, by decide⟩,
      h function (List.mem_append_right _ List.mem_cons_self)⟩
  | int n =>
    cases hsummary
    exact (isNumeral_wordText n).notMem (by decide)
  | str value =>
    cases hsummary
    intro hmem
    exact absurd (Text.isPrintable_quoted value _ hmem) (by decide)
  | stackValue => cases hsummary
  | _ =>
    cases hsummary
    exact hkind

/-! ## What is decided about its value -/

theorem Location.isNumeral_name (location : Location) : Number.IsNumeral location.name := by
  cases location with
  | nowhere | virtual => decide
  | reg _ => exact (by decide : Number.IsNumeral "reg")
  | stack _ => exact (by decide : Number.IsNumeral "stack")

namespace Note

theorem isNumeral_typeName (a : Note) : Number.IsNumeral a.typeName := by
  rw [typeName]
  cases a.type with
  | none => decide
  | some k => exact k.isNumeral_name

/-- What is shown of a note behind the kind of the node. -/
def details (a : Note) : String :=
  a.typeName ++ " size:0x" ++ a.size.hex ++ " loc:" ++ a.location.name ++ a.location.suffix ++ ")"

theorem block_eq (a : Note) (kind : Kind) :
    a.block kind = "(type:" ++ kind.name ++ "/" ++ a.details := by
  change "(type:" ++ kind.name ++ "/" ++ a.typeName ++ " size:0x" ++ a.size.hex ++ " loc:"
    ++ a.location.name ++ a.location.suffix ++ ")" = "(type:" ++ kind.name ++ "/"
      ++ (a.typeName ++ " size:0x" ++ a.size.hex ++ " loc:" ++ a.location.name
        ++ a.location.suffix ++ ")")
  simp only [String.append_assoc]

/-- The characters found in details: those of numerals, and the ones that separate the parts. -/
def isDetail (c : Char) : Bool := Number.isNumeral c || c ∈ [' ', ':', '/', ')']

theorem isDetail_of_isNumeral {s : String} (h : Number.IsNumeral s) :
    ∀ c ∈ s.toList, isDetail c = true := fun c hc =>
  Bool.or_eq_true_iff.mpr (.inl (h c hc))

theorem isDetail_suffix (location : Location) :
    ∀ c ∈ location.suffix.toList, isDetail c = true := by
  cases location with
  | nowhere | virtual => exact fun _ h => absurd h List.not_mem_nil
  | reg register =>
    exact forall_mem_append.mpr
      ⟨forall_mem_of_all (by decide), isDetail_of_isNumeral register.isNumeral_text⟩
  | stack address =>
    exact forall_mem_append.mpr
      ⟨forall_mem_of_all (by decide), isDetail_of_isNumeral (-address).isNumeral_hex⟩

/-- **Details have few characters**: neither brackets that open nor line ends are among them. -/
theorem isDetail_details (a : Note) : ∀ c ∈ a.details.toList, isDetail c = true := by
  have htype := isDetail_of_isNumeral a.isNumeral_typeName
  have hsize := isDetail_of_isNumeral a.size.isNumeral_hex
  have hname := isDetail_of_isNumeral a.location.isNumeral_name
  have hsuffix := isDetail_suffix a.location
  simp only [details, forall_mem_append]
  exact ⟨⟨⟨⟨⟨⟨htype, forall_mem_of_all (by decide)⟩, hsize⟩, forall_mem_of_all (by decide)⟩,
    hname⟩, hsuffix⟩, forall_mem_of_all (by decide)⟩

theorem notMem_details (a : Note) {c : Char} (hc : c = '(' ∨ c = '\n') : c ∉ a.details.toList := by
  intro hmem
  have hdetail := a.isDetail_details c hmem
  rcases hc with rfl | rfl <;> exact absurd hdetail (by decide)

/-- **A note begins with a bracket and a kind.** -/
theorem toList_block (a : Note) (kind : Kind) :
    (a.block kind).toList
      = '(' :: ("type:".toList ++ (kind.name.toList ++ '/' :: a.details.toList)) :=
  (congrArg String.toList (a.block_eq kind)).trans (toList_append₄ ..)

/-- There is no other bracket in a note that opens. -/
theorem openBracket_notMem (a : Note) (kind : Kind) :
    '(' ∉ "type:".toList ++ (kind.name.toList ++ '/' :: a.details.toList) := by
  have hname : '(' ∉ kind.name.toList := kind.isNumeral_name.notMem (by decide)
  have htype : '(' ∉ "type:".toList := by decide
  rw [List.mem_append, List.mem_append, List.mem_cons, not_or, not_or, not_or]
  exact ⟨htype, hname, by decide, a.notMem_details (.inl rfl)⟩

/-- **What stands in front of a note, the kind and the details are told apart**: the last bracket
that opens begins the note, and the first slash behind it ends the kind. -/
theorem eq_of_append_block_eq {s t : String} {a b : Note} {j k : Kind}
    (h : s ++ " " ++ a.block j = t ++ " " ++ b.block k) :
    s = t ∧ j = k ∧ a.details = b.details := by
  have hlist : (s ++ " ").toList ++ (a.block j).toList
      = (t ++ " ").toList ++ (b.block k).toList := by
    rw [← String.toList_append, ← String.toList_append, h]
  rw [toList_block, toList_block] at hlist
  obtain ⟨hfront, hblock⟩ := append_cons_inj_of_notMem_right (a.openBracket_notMem j)
    (b.openBracket_notMem k) hlist
  have hslash (k : Kind) : '/' ∉ k.name.toList := k.isNumeral_name.notMem (by decide)
  obtain ⟨hkind, hdetails⟩ := append_cons_inj_of_notMem_left (hslash j) (hslash k)
    (List.append_cancel_left hblock)
  exact ⟨(String.append_left_inj " ").mp (String.toList_inj.mp hfront),
    Kind.name_injective (String.toList_inj.mp hkind), String.toList_inj.mp hdetails⟩

end Note

/-! ## The line -/

namespace Ledger

variable {ledger ledger' : Ledger} {f g : Forest} {m n : NodeId} {text : String}

/-- A line is made of what the node is and of its note. -/
theorem exists_of_line_eq (h : ledger.line f n = .ok text) :
    ∃ summary, (f.shape n).summary = .ok summary ∧
      text = summary ++ " " ++ (ledger.shownNote n).block (f.kind n) := by
  rw [line] at h
  cases hsummary : (f.shape n).summary with
  | error fault =>
    rw [hsummary] at h
    cases h
  | ok summary =>
    rw [hsummary] at h
    exact ⟨summary, rfl, (Except.ok.inj h).symm⟩

/-- **A line has no line end**, unless there is one in a text shown as it is. -/
theorem newline_notMem_line (hshape : (f.shape n).IsOneLine) (h : ledger.line f n = .ok text) :
    '\n' ∉ text.toList := by
  obtain ⟨summary, hsummary, rfl⟩ := exists_of_line_eq h
  have hline := Shape.newline_notMem_summary hshape hsummary
  have hname : '\n' ∉ (f.kind n).name.toList := (f.kind n).isNumeral_name.notMem (by decide)
  rw [Note.block_eq]
  simp only [notMem_append]
  exact ⟨⟨hline, by decide⟩, ⟨⟨by decide, hname⟩, by decide⟩, Note.notMem_details _ (.inr rfl)⟩

/-- **The kind of a node can be read off its line**, whatever names are in the line. -/
theorem kind_eq_of_line_eq (h : ledger.line f m = .ok text) (h' : ledger'.line g n = .ok text) :
    f.kind m = g.kind n := by
  obtain ⟨_, -, htext⟩ := exists_of_line_eq h
  obtain ⟨_, -, htext'⟩ := exists_of_line_eq h'
  exact (Note.eq_of_append_block_eq (htext.symm.trans htext')).2.1

end Ledger

end ProbeScript
