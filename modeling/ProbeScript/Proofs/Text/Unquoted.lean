import ProbeScript.Proofs.Dump.Legible
import ProbeScript.Proofs.Number.Hexadecimal
import ProbeScript.Proofs.Text.Encoded

/-!
# Proofs/Text/Unquoted — string literals are read back

Inside a literal a byte is written in one of three ways, and the first two characters tell which:
as itself, by a short name, or by its two digits.  So the bytes can be read back (`unescape_escape`)
and with them the text (`unquote_quote`), as long as no byte that stands for itself looks like the
beginning of another way: the backslash is the only one that does.
-/

namespace ProbeScript

namespace Text

variable {c : Char} {b : UInt8} {rest s : List Char} {bytes : List UInt8}

/-- The literal of a text given in code units. -/
def literal (us : List UInt16) : List Char := quote (ofUnits us)

/-! ## Reading a literal -/

/-- The bytes that are written inside a literal.  A backslash begins a short name or two digits; any
other character is the byte of its own code. -/
def unescape : List Char → List UInt8
  | [] => []
  | '\\' :: 'n' :: rest => 0x0a :: unescape rest
  | '\\' :: 'r' :: rest => 0x0d :: unescape rest
  | '\\' :: 't' :: rest => 0x09 :: unescape rest
  | '\\' :: 'x' :: high :: low :: rest =>
    UInt8.ofNat (16 * Number.digitValue high + Number.digitValue low) :: unescape rest
  | c :: rest => UInt8.ofNat c.toNat :: unescape rest

/-- The text of a literal. -/
def unquote (cs : List Char) : List Char := ofUtf8 (unescape (cs.drop 1).dropLast)

theorem unescape_cons (h : c ≠ '\\') :
    unescape (c :: rest) = UInt8.ofNat c.toNat :: unescape rest := by
  rw [unescape]
  all_goals
    intros
    contradiction

/-- **How a byte is written says which byte it is**, whatever follows, unless it is the
backslash. -/
theorem unescape_escapeByte_append (h : b ≠ 0x5c) :
    unescape (escapeByte b ++ rest) = b :: unescape rest := by
  rw [escapeByte]
  split
  case isTrue =>
    have hself : UInt8.ofNat (Char.ofNat b.toNat).toNat = b := by
      rw [toNat_ofNat_toNat, UInt8.ofNat_toNat]
    have hne : Char.ofNat b.toNat ≠ '\\' := by
      intro hc
      rw [hc] at hself
      exact h hself.symm
    rw [List.singleton_append, unescape_cons hne, hself]
  split
  case isTrue hline =>
    rw [hline]
    rfl
  split
  case isTrue hreturn =>
    rw [hreturn]
    rfl
  split
  case isTrue htab =>
    rw [htab]
    rfl
  case isFalse =>
    have hhigh : b.toNat / 16 < 16 := Nat.div_lt_of_lt_mul b.toNat_lt
    have hlow : b.toNat % 16 < 16 := Nat.mod_lt _ (by decide)
    change UInt8.ofNat (16 * Number.digitValue (Nat.digitChar (b.toNat / 16))
      + Number.digitValue (Nat.digitChar (b.toNat % 16))) :: unescape rest = _
    rw [Number.digitValue_digitChar hhigh, Number.digitValue_digitChar hlow, Nat.div_add_mod,
      UInt8.ofNat_toNat]

theorem unescape_escape (h : 0x5c ∉ bytes) : unescape (bytes.flatMap escapeByte) = bytes := by
  induction bytes with
  | nil => rfl
  | cons b bytes ih =>
    rw [List.mem_cons, not_or] at h
    obtain ⟨hb, hbytes⟩ := h
    rw [List.flatMap_cons, unescape_escapeByte_append (Ne.symm hb), ih hbytes]

/-- In UTF-8 the byte of the backslash stands for nothing else. -/
theorem backslash_notMem_utf8 (h : '\\' ∉ s) : 0x5c ∉ utf8 s := by
  rw [utf8, List.mem_flatMap]
  rintro ⟨c, hc, hmem⟩
  obtain rfl : c = '\\' := Char.toNat_inj.mp (toNat_eq_of_mem_utf8EncodeChar hmem (by decide))
  exact h hc

/-- **A literal is read back**, if there is no backslash in its text. -/
theorem unquote_quote (h : '\\' ∉ s) : unquote (quote s) = s := by
  rw [unquote, quote, List.drop_one, List.tail_cons, List.dropLast_concat,
    unescape_escape (backslash_notMem_utf8 h), ofUtf8_utf8]

/-- The backslash stands for itself, so a text with one can be taken for another text. -/
example : quote ['\\', 'n'] = quote ['\n'] := by decide

end Text

/-! ## The line of a literal -/

namespace Text

/-- Characters between two printable ones are printable. -/
theorem isPrintable_of_range {c low high : Char} (hlow : IsPrintable low) (hhigh : IsPrintable high)
    (h : low.val ≤ c.val ∧ c.val ≤ high.val) : IsPrintable c :=
  ⟨hlow.1.trans (UInt32.le_iff_toNat_le.mp h.1), (UInt32.le_iff_toNat_le.mp h.2).trans hhigh.2⟩

theorem isPrintable_of_isAlphanum {c : Char} (h : c.isAlphanum = true) : IsPrintable c := by
  have hrange (low high : Char)
      (h : (decide (low.val ≤ c.val) && decide (c.val ≤ high.val)) = true) :
      low.val ≤ c.val ∧ c.val ≤ high.val := by
    rwa [Bool.and_eq_true, decide_eq_true_iff, decide_eq_true_iff] at h
  rcases Bool.or_eq_true_iff.mp h with halpha | hdigit
  · rcases Bool.or_eq_true_iff.mp halpha with hupper | hlower
    · exact isPrintable_of_range (by decide) (by decide)
        (of_decide_eq_true hupper : 'A'.val ≤ c.val ∧ c.val ≤ 'Z'.val)
    · exact isPrintable_of_range (by decide) (by decide) (hrange 'a' 'z' hlower)
  · exact isPrintable_of_range (by decide) (by decide) (hrange '0' '9' hdigit)

theorem isPrintable_of_isDetail {c : Char} (h : Note.isDetail c = true) : IsPrintable c := by
  have hmark : ∀ c ∈ [' ', ':', '/', ')'], IsPrintable c := forall_mem_of_all (by decide)
  rw [Note.isDetail, Number.isNumeral, Bool.or_eq_true, decide_eq_true_iff, Bool.or_eq_true,
    Bool.or_eq_true, Bool.or_eq_true, beq_iff_eq, beq_iff_eq, beq_iff_eq] at h
  rcases h with (((h | rfl) | rfl) | rfl) | h
  · exact isPrintable_of_isAlphanum h
  · decide
  · decide
  · decide
  · exact hmark c h

end Text

theorem Note.isPrintable_block (a : Note) (kind : Kind) :
    ∀ c ∈ (a.block kind).toList, Text.IsPrintable c := by
  have hname (c : Char) (hc : c ∈ kind.name.toList) : Text.IsPrintable c :=
    Text.isPrintable_of_isDetail (Note.isDetail_of_isNumeral kind.isNumeral_name c hc)
  have hdetails (c : Char) (hc : c ∈ a.details.toList) : Text.IsPrintable c :=
    Text.isPrintable_of_isDetail (a.isDetail_details c hc)
  rw [block_eq]
  simp only [forall_mem_append]
  exact ⟨⟨⟨forall_mem_of_all (by decide), hname⟩, forall_mem_of_all (by decide)⟩, hdetails⟩

theorem Ledger.line_of_str {f : Forest} {n : NodeId} {value : String} (ledger : Ledger)
    (h : f.shape n = .str value) : ledger.line f n
      = .ok (Text.quoted value ++ " " ++ (ledger.shownNote n).block (f.kind n)) := by
  rw [line, h]
  rfl

/-! ## Literals of code units -/

namespace Text

/-- **A string literal is printable and can be read back.**  Its text is any sequence of code units,
and a surrogate without its other half is encoded as the replacement character; the literal stands
between double quotes, and neither it nor the line of its node has a character outside printable
ASCII.  A text of characters without a backslash is read back from its literal, so two such texts
with one literal are one text. -/
theorem literals_printable_and_readable :
    (∀ us : List UInt16, (∀ c ∈ literal us, IsPrintable c) ∧
      ∃ inside, literal us = '"' :: (inside ++ ['"'])) ∧
    (∀ (before : List UInt16) (u : UInt16) (after : List UInt16), IsLone before u after →
      utf8 (ofUnits (before ++ u :: after))
        = utf8 (ofUnits before) ++ [0xef, 0xbf, 0xbd] ++ utf8 (ofUnits after)) ∧
    (∀ (ledger : Ledger) (f : Forest) (n : NodeId) (us : List UInt16),
      f.shape n = .str (String.ofList (ofUnits us)) →
        ∃ line, ledger.line f n = .ok line ∧ literal us <+: line.toList ∧
          ∀ c ∈ line.toList, IsPrintable c) ∧
    (∀ s : List Char, '\\' ∉ s → unquote (literal (units s)) = s) ∧
    ∀ s t : List Char, '\\' ∉ s → '\\' ∉ t → literal (units s) = literal (units t) → s = t := by
  have hquoted (us : List UInt16) : (quoted (String.ofList (ofUnits us))).toList = literal us := by
    rw [quoted, String.toList_ofList, String.toList_ofList, literal]
  have hprint (us : List UInt16) : ∀ c ∈ literal us, IsPrintable c := by
    rw [← hquoted]
    exact isPrintable_quoted _
  have hread (s : List Char) (hs : '\\' ∉ s) : unquote (literal (units s)) = s := by
    rw [literal, ofUnits_units, unquote_quote hs]
  refine ⟨fun us => ⟨hprint us, _, rfl⟩, ?_, ?_, hread, ?_⟩
  · intro before u after h
    have hlone : utf8 [replacement] = [0xef, 0xbf, 0xbd] := by decide
    rw [ofUnits_lone h, utf8, utf8, List.flatMap_append, ← List.singleton_append,
      List.flatMap_append, ← List.append_assoc]
    exact congrArg (_ ++ · ++ _) hlone
  · intro ledger f n us h
    refine ⟨_, ledger.line_of_str h, ?_, ?_⟩
    · rw [← hquoted, String.toList_append, String.toList_append, List.append_assoc]
      exact List.prefix_append ..
    · simp only [forall_mem_append]
      exact ⟨⟨isPrintable_quoted _, forall_mem_of_all (by decide)⟩, Note.isPrintable_block _ _⟩
  · intro s t hs ht h
    rw [← hread s hs, h, hread t ht]

/-- A text with a quote, a line end and a character of two units, and one with half of that. -/
theorem literals_printable_and_readable_of_halves :
    let s := ['é', '"', '\n', '😀']
    unquote (literal (units s)) = s ∧ literal (units s) ≠ literal (units s.dropLast) ∧
      IsLone [0x61] 0xd83d [0x62] ∧
      utf8 (ofUnits [0x61, 0xd83d, 0x62]) = [0x61, 0xef, 0xbf, 0xbd, 0x62] ∧
      ∃ line, ({} : Ledger).line ⟨#[{ shape := .str "a\ufffdb" }]⟩ 0 = .ok line ∧
        ∀ c ∈ line.toList, IsPrintable c := by
  intro s
  obtain ⟨-, hlone, hline, hread, hinj⟩ := literals_printable_and_readable
  have hs : '\\' ∉ s := by decide
  have ht : '\\' ∉ s.dropLast := by decide
  have hhalf : IsLone [0x61] 0xd83d [0x62] := by decide
  obtain ⟨line, htext, -, hprint⟩ := hline {} ⟨#[{ shape := .str "a\ufffdb" }]⟩ 0
    [0x61, 0xd83d, 0x62] (by decide)
  refine ⟨hread s hs, fun h => ?_, hhalf, hlone _ _ _ hhalf, line, htext, hprint⟩
  exact absurd (hinj s _ hs ht h) (by decide)

end Text

end ProbeScript
