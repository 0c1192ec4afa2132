import ProbeScript.Text.Quoted
import ProbeScript.Text.Utf8

/-!
# Proofs/Text/Encoded — the encoded forms of a text are read back

Each character has a form of one or two code units in UTF-16 and a form of one to four bytes in
UTF-8.  Reading a form gives the character back and leaves what follows it untouched, so the forms
of a text are read back as the text (`ofUnits_units`, `ofUtf8_utf8`).  Code units need not be the
form of any text: a surrogate without its other half is read as the replacement character, and what
stands before and after it is read as if it stood alone (`ofUnits_lone`).
-/

namespace ProbeScript.Text

/-! ## Code units -/

/-- The UTF-16 form of a character: a unit, or a pair of surrogates. -/
def unitsOfChar (c : Char) : List UInt16 :=
  if c.toNat < 0x10000 then [UInt16.ofNat c.toNat]
  else [UInt16.ofNat (0xd800 + (c.toNat - 0x10000) / 0x400),
    UInt16.ofNat (0xdc00 + (c.toNat - 0x10000) % 0x400)]

/-- The UTF-16 form of a text. -/
def units (s : List Char) : List UInt16 := s.flatMap unitsOfChar

/-- Whether a unit between others is a surrogate without its other half. -/
def IsLone (before : List UInt16) (u : UInt16) (after : List UInt16) : Prop :=
  isHighSurrogate u = true ∧ after.head?.any isLowSurrogate = false ∨
    isLowSurrogate u = true ∧ before.getLast?.any isHighSurrogate = false

instance (before : List UInt16) (u : UInt16) (after : List UInt16) :
    Decidable (IsLone before u after) := inferInstanceAs (Decidable (_ ∨ _))

variable {u v : UInt16} {before after : List UInt16}

theorem isHighSurrogate_iff : isHighSurrogate u = true ↔ 0xd800 ≤ u.toNat ∧ u.toNat < 0xdc00 := by
  rw [isHighSurrogate, Bool.and_eq_true, decide_eq_true_iff, decide_eq_true_iff,
    UInt16.le_iff_toNat_le, UInt16.lt_iff_toNat_lt]
  rfl

theorem isLowSurrogate_iff : isLowSurrogate u = true ↔ 0xdc00 ≤ u.toNat ∧ u.toNat < 0xe000 := by
  rw [isLowSurrogate, Bool.and_eq_true, decide_eq_true_iff, decide_eq_true_iff,
    UInt16.le_iff_toNat_le, UInt16.lt_iff_toNat_lt]
  rfl

/-- No surrogate is both the first half of a pair and the second. -/
theorem not_isLowSurrogate (h : isHighSurrogate u = true) : isLowSurrogate u = false := by
  rw [Bool.eq_false_iff, Ne, isLowSurrogate_iff]
  rw [isHighSurrogate_iff] at h
  omega

theorem not_isHighSurrogate (h : isLowSurrogate u = true) : isHighSurrogate u = false := by
  rw [Bool.eq_false_iff]
  exact fun hu => Bool.false_ne_true ((not_isLowSurrogate hu).symm.trans h)

theorem ofUnits_singleton (u : UInt16) :
    ofUnits [u]
      = [if isHighSurrogate u || isLowSurrogate u then replacement else Char.ofNat u.toNat] := rfl

theorem ofUnits_pair (hu : isHighSurrogate u = true) (hv : isLowSurrogate v = true) :
    ofUnits (u :: v :: after) = pairChar u v :: ofUnits after := by
  rw [ofUnits, if_pos (by rw [hu, hv]; rfl)]

/-- A unit that is not the first half of a pair is read on its own. -/
theorem ofUnits_cons (h : isHighSurrogate u = false ∨ after.head?.any isLowSurrogate = false) :
    ofUnits (u :: after) = ofUnits [u] ++ ofUnits after := by
  cases after with
  | nil => rfl
  | cons v rest =>
    have hpair : ¬(isHighSurrogate u && isLowSurrogate v) = true := by
      rw [Bool.and_eq_true]
      rintro ⟨hu, hv⟩
      rcases h with h | h
      · exact Bool.false_ne_true (h.symm.trans hu)
      · exact Bool.false_ne_true (h.symm.trans hv)
    refine (if_neg hpair).trans ?_
    rw [ofUnits_singleton]
    split <;> rfl

/-- **Units are read apart** at a place that does not divide a pair. -/
theorem ofUnits_append : ∀ {before after : List UInt16},
    before.getLast?.any isHighSurrogate = false ∨ after.head?.any isLowSurrogate = false →
    ofUnits (before ++ after) = ofUnits before ++ ofUnits after
  | [], _, _ => rfl
  | [_], _, h => ofUnits_cons h
  | u :: v :: rest, after, h => by
    rw [List.getLast?_cons_cons] at h
    rw [List.cons_append, List.cons_append]
    rcases Bool.eq_false_or_eq_true (isHighSurrogate u && isLowSurrogate v) with hpair | hpair
    · rw [Bool.and_eq_true] at hpair
      have hrest : rest.getLast?.any isHighSurrogate = false ∨
          after.head?.any isLowSurrogate = false := by
        cases rest with
        | nil => exact .inl rfl
        | cons w rest => rwa [List.getLast?_cons_cons] at h
      rw [ofUnits_pair hpair.1 hpair.2, ofUnits_pair hpair.1 hpair.2, ofUnits_append hrest,
        List.cons_append]
    · have hcons (tail : List UInt16) : isHighSurrogate u = false ∨
          (v :: tail).head?.any isLowSurrogate = false := Bool.and_eq_false_iff.mp hpair
      rw [ofUnits_cons (hcons _), ofUnits_cons (hcons _), List.append_assoc,
        ← ofUnits_append h, List.cons_append]

/-- **A surrogate without its other half is read as the replacement character**, and the units
before it and after it as if it were not there. -/
theorem ofUnits_lone (h : IsLone before u after) :
    ofUnits (before ++ u :: after) = ofUnits before ++ replacement :: ofUnits after := by
  have hself : ofUnits [u] = [replacement] := by
    rw [ofUnits_singleton, if_pos]
    rw [Bool.or_eq_true]
    exact h.imp And.left And.left
  have hbefore : before.getLast?.any isHighSurrogate = false ∨
      (u :: after).head?.any isLowSurrogate = false :=
    h.elim (fun h => .inr (not_isLowSurrogate h.1)) fun h => .inl h.2
  have hafter : isHighSurrogate u = false ∨ after.head?.any isLowSurrogate = false :=
    h.elim (fun h => .inr h.2) fun h => .inl (not_isHighSurrogate h.1)
  rw [ofUnits_append hbefore, ofUnits_cons hafter, hself]
  rfl

/-- A character's code point lies outside the surrogates and is not too large. -/
theorem toNat_cases (c : Char) : c.toNat < 0xd800 ∨ 0xdfff < c.toNat ∧ c.toNat < 0x110000 :=
  c.valid

theorem toNat_unit {n : Nat} (h : n < 0x10000) : (UInt16.ofNat n).toNat = n :=
  UInt16.toNat_ofNat_of_lt' h

theorem ofUnits_unitsOfChar_append (c : Char) (rest : List UInt16) :
    ofUnits (unitsOfChar c ++ rest) = c :: ofUnits rest := by
  have hvalid := toNat_cases c
  rw [unitsOfChar]
  split
  case isTrue hlt =>
    have hunit : (UInt16.ofNat c.toNat).toNat = c.toNat := toNat_unit hlt
    have hhigh : isHighSurrogate (UInt16.ofNat c.toNat) = false := by
      rw [Bool.eq_false_iff, Ne, isHighSurrogate_iff, hunit]
      omega
    have hlow : isLowSurrogate (UInt16.ofNat c.toNat) = false := by
      rw [Bool.eq_false_iff, Ne, isLowSurrogate_iff, hunit]
      omega
    rw [List.singleton_append, ofUnits_cons (.inl hhigh), ofUnits_singleton, hhigh, hlow, hunit,
      Char.ofNat_toNat]
    rfl
  case isFalse hge =>
    have hhigh : (UInt16.ofNat (0xd800 + (c.toNat - 0x10000) / 0x400)).toNat
        = 0xd800 + (c.toNat - 0x10000) / 0x400 := toNat_unit (by omega)
    have hlow : (UInt16.ofNat (0xdc00 + (c.toNat - 0x10000) % 0x400)).toNat
        = 0xdc00 + (c.toNat - 0x10000) % 0x400 := toNat_unit (by omega)
    have hcode : 0x10000 + (0xd800 + (c.toNat - 0x10000) / 0x400 - 0xd800) * 0x400
        + (0xdc00 + (c.toNat - 0x10000) % 0x400 - 0xdc00) = c.toNat := by omega
    refine (ofUnits_pair (isHighSurrogate_iff.mpr ?_) (isLowSurrogate_iff.mpr ?_)).trans ?_
    · rw [hhigh]
      omega
    · rw [hlow]
      omega
    · rw [pairChar, hhigh, hlow, hcode, Char.ofNat_toNat]
      rfl

/-- **The UTF-16 form of a text is read back.** -/
theorem ofUnits_units (s : List Char) : ofUnits (units s) = s := by
  induction s with
  | nil => rfl
  | cons c s ih =>
    rw [units, List.flatMap_cons, ofUnits_unitsOfChar_append]
    exact congrArg (c :: ·) ih

/-! ## Bytes -/

variable {n v bits missing : Nat} {low high : UInt8} {bytes : List UInt8}

theorem toNat_byte (h : n < 0x100) : (UInt8.ofNat n).toNat = n :=
  UInt8.toNat_ofNat_of_lt' h

/-- What a byte does at the beginning of a character, by its value. -/
theorem beginChar_ofNat (h : n < 0x100) :
    beginChar (UInt8.ofNat n) =
      if n ≤ 0x7f then ([Char.ofNat n], none)
      else if n < 0xc2 then ([replacement], none)
      else if n ≤ 0xdf then ([], some ⟨n - 0xc0, 1, 0x80, 0xbf⟩)
      else if n ≤ 0xef then
        ([], some ⟨n - 0xe0, 2, if n = 0xe0 then 0xa0 else 0x80, if n = 0xed then 0x9f else 0xbf⟩)
      else if n ≤ 0xf4 then
        ([], some ⟨n - 0xf0, 3, if n = 0xf0 then 0x90 else 0x80, if n = 0xf4 then 0x8f else 0xbf⟩)
      else ([replacement], none) := by
  simp only [beginChar, UInt8.le_iff_toNat_le, UInt8.lt_iff_toNat_lt, ← UInt8.toNat_inj,
    toNat_byte h]
  rfl

theorem readUtf8_begin {b : UInt8} {p : Partial} (h : beginChar b = ([], some p)) :
    readUtf8 none (b :: bytes) = readUtf8 (some p) bytes := by
  rw [readUtf8, h]
  rfl

/-- A byte after the first adds six bits; the last one that is missing completes the character. -/
theorem readUtf8_continue (hlow : low.toNat ≤ n % 64 + 128) (hhigh : n % 64 + 128 ≤ high.toNat) :
    readUtf8 (some ⟨bits, missing, low, high⟩) (UInt8.ofNat (n % 64 + 128) :: bytes) =
      if missing ≤ 1 then Char.ofNat (bits * 64 + n % 64) :: readUtf8 none bytes
      else readUtf8 (some ⟨bits * 64 + n % 64, missing - 1, 0x80, 0xbf⟩) bytes := by
  have hbyte : (UInt8.ofNat (n % 64 + 128)).toNat = n % 64 + 128 := toNat_byte (by omega)
  have hbits : (n % 64 + 128) % 64 = n % 64 := by omega
  have hrange : (low ≤ UInt8.ofNat (n % 64 + 128) && UInt8.ofNat (n % 64 + 128) ≤ high) = true := by
    rw [Bool.and_eq_true, decide_eq_true_iff, decide_eq_true_iff, UInt8.le_iff_toNat_le,
      UInt8.le_iff_toNat_le, hbyte]
    exact ⟨hlow, hhigh⟩
  rw [readUtf8, continueChar, if_pos hrange, hbyte, hbits]
  split <;> rfl

theorem tail_range (n : Nat) :
    (0x80 : UInt8).toNat ≤ n % 64 + 128 ∧ n % 64 + 128 ≤ (0xbf : UInt8).toNat := by
  change 0x80 ≤ n % 64 + 128 ∧ n % 64 + 128 ≤ 0xbf
  omega

/-- Some first bytes narrow the range of the second one from below. -/
theorem toNat_ite_le_tail {p : Prop} [Decidable p] (h : p → low.toNat ≤ n % 64 + 128) :
    (if p then low else 0x80).toNat ≤ n % 64 + 128 := by
  split
  case isTrue hp => exact h hp
  case isFalse => exact (tail_range n).1

/-- Others narrow it from above. -/
theorem tail_le_toNat_ite {p : Prop} [Decidable p] (h : p → n % 64 + 128 ≤ high.toNat) :
    n % 64 + 128 ≤ (if p then high else 0xbf).toNat := by
  split
  case isTrue hp => exact h hp
  case isFalse => exact (tail_range n).2

/-- A byte that is neither the second nor the last of its character. -/
theorem readUtf8_next :
    readUtf8 (some ⟨bits, missing + 2, 0x80, 0xbf⟩) (UInt8.ofNat (n % 64 + 128) :: bytes)
      = readUtf8 (some ⟨bits * 64 + n % 64, missing + 1, 0x80, 0xbf⟩) bytes := by
  rw [readUtf8_continue (tail_range n).1 (tail_range n).2, if_neg (by omega)]
  rfl

/-- The last byte of its character. -/
theorem readUtf8_last :
    readUtf8 (some ⟨bits, 1, 0x80, 0xbf⟩) (UInt8.ofNat (n % 64 + 128) :: bytes)
      = Char.ofNat (bits * 64 + n % 64) :: readUtf8 none bytes := by
  rw [readUtf8_continue (tail_range n).1 (tail_range n).2, if_pos (Nat.le_refl 1)]

theorem readUtf8_one (h : v ≤ 0x7f) :
    readUtf8 none (UInt8.ofNat v :: bytes) = Char.ofNat v :: readUtf8 none bytes := by
  rw [readUtf8, beginChar_ofNat (by omega), if_pos h]
  rfl

theorem readUtf8_two (hlow : 0x80 ≤ v) (hhigh : v ≤ 0x7ff) :
    readUtf8 none (UInt8.ofNat (v / 64 % 32 + 192) :: UInt8.ofNat (v % 64 + 128) :: bytes)
      = Char.ofNat v :: readUtf8 none bytes := by
  have hbegin : beginChar (UInt8.ofNat (v / 64 % 32 + 192))
      = ([], some ⟨v / 64 % 32, 1, 0x80, 0xbf⟩) := by
    rw [beginChar_ofNat (by omega), if_neg (by omega), if_neg (by omega), if_pos (by omega),
      Nat.add_sub_cancel]
  have hbits : v / 64 % 32 * 64 + v % 64 = v := by omega
  rw [readUtf8_begin hbegin, readUtf8_last, hbits]

theorem readUtf8_three (hlow : 0x800 ≤ v) (hhigh : v ≤ 0xffff) (hv : v < 0xd800 ∨ 0xdfff < v) :
    readUtf8 none (UInt8.ofNat (v / 4096 % 16 + 224) :: UInt8.ofNat (v / 64 % 64 + 128) ::
        UInt8.ofNat (v % 64 + 128) :: bytes)
      = Char.ofNat v :: readUtf8 none bytes := by
  have hbegin : beginChar (UInt8.ofNat (v / 4096 % 16 + 224)) = ([], some ⟨v / 4096 % 16, 2,
      if v / 4096 % 16 + 224 = 0xe0 then 0xa0 else 0x80,
      if v / 4096 % 16 + 224 = 0xed then 0x9f else 0xbf⟩) := by
    rw [beginChar_ofNat (by omega), if_neg (by omega), if_neg (by omega), if_neg (by omega),
      if_pos (by omega), Nat.add_sub_cancel]
  have hfrom (h : v / 4096 % 16 + 224 = 0xe0) : (0xa0 : UInt8).toNat ≤ v / 64 % 64 + 128 := by
    change 0xa0 ≤ _
    omega
  have hto (h : v / 4096 % 16 + 224 = 0xed) : v / 64 % 64 + 128 ≤ (0x9f : UInt8).toNat := by
    change _ ≤ 0x9f
    omega
  have hbits : (v / 4096 % 16 * 64 + v / 64 % 64) * 64 + v % 64 = v := by omega
  rw [readUtf8_begin hbegin, readUtf8_continue (toNat_ite_le_tail hfrom) (tail_le_toNat_ite hto),
    if_neg (by decide), readUtf8_last, hbits]

theorem readUtf8_four (hlow : 0x10000 ≤ v) (hhigh : v < 0x110000) :
    readUtf8 none (UInt8.ofNat (v / 262144 % 8 + 240) :: UInt8.ofNat (v / 4096 % 64 + 128) ::
        UInt8.ofNat (v / 64 % 64 + 128) :: UInt8.ofNat (v % 64 + 128) :: bytes)
      = Char.ofNat v :: readUtf8 none bytes := by
  have hbegin : beginChar (UInt8.ofNat (v / 262144 % 8 + 240)) = ([], some ⟨v / 262144 % 8, 3,
      if v / 262144 % 8 + 240 = 0xf0 then 0x90 else 0x80,
      if v / 262144 % 8 + 240 = 0xf4 then 0x8f else 0xbf⟩) := by
    rw [beginChar_ofNat (by omega), if_neg (by omega), if_neg (by omega), if_neg (by omega),
      if_neg (by omega), if_pos (by omega), Nat.add_sub_cancel]
  have hfrom (h : v / 262144 % 8 + 240 = 0xf0) : (0x90 : UInt8).toNat ≤ v / 4096 % 64 + 128 := by
    change 0x90 ≤ _
    omega
  have hto (h : v / 262144 % 8 + 240 = 0xf4) : v / 4096 % 64 + 128 ≤ (0x8f : UInt8).toNat := by
    change _ ≤ 0x8f
    omega
  have hbits : ((v / 262144 % 8 * 64 + v / 4096 % 64) * 64 + v / 64 % 64) * 64 + v % 64 = v := by
    omega
  rw [readUtf8_begin hbegin, readUtf8_continue (toNat_ite_le_tail hfrom) (tail_le_toNat_ite hto),
    if_neg (by decide), readUtf8_next, readUtf8_last, hbits]

/-- **The UTF-8 form of a character is read back**, whichever bytes follow it. -/
theorem readUtf8_utf8EncodeChar_append (c : Char) (bytes : List UInt8) :
    readUtf8 none (String.utf8EncodeChar c ++ bytes) = c :: readUtf8 none bytes := by
  have hvalid := toNat_cases c
  have hcode : c.val.toNat = c.toNat := rfl
  refine Eq.trans ?_ (congrArg (· :: readUtf8 none bytes) (Char.ofNat_toNat c))
  rw [String.utf8EncodeChar, hcode]
  split
  case isTrue hone => exact readUtf8_one hone
  split
  case isTrue htwo => exact readUtf8_two (by omega) htwo
  split
  case isTrue hthree => exact readUtf8_three (by omega) hthree (by omega)
  case isFalse hfour => exact readUtf8_four (by omega) (by omega)

/-- **The UTF-8 form of a text is read back.** -/
theorem ofUtf8_utf8 (s : List Char) : ofUtf8 (utf8 s) = s := by
  induction s with
  | nil => rfl
  | cons c s ih =>
    rw [utf8, List.flatMap_cons, ofUtf8, readUtf8_utf8EncodeChar_append]
    exact congrArg (c :: ·) ih

/-- **A byte of seven bits is the form of the character of its code**, and no part of another
form. -/
theorem toNat_eq_of_mem_utf8EncodeChar {c : Char} {b : UInt8} (h : b ∈ String.utf8EncodeChar c)
    (hb : b.toNat < 0x80) : c.toNat = b.toNat := by
  have hlong {m : Nat} (hlow : 0x80 ≤ m) (hhigh : m < 0x100) : b ≠ UInt8.ofNat m := by
    rintro rfl
    rw [toNat_byte hhigh] at hb
    omega
  have hcode : c.val.toNat = c.toNat := rfl
  rw [String.utf8EncodeChar, hcode] at h
  split at h
  case isTrue hone =>
    obtain rfl := List.mem_singleton.mp h
    exact (toNat_byte (by omega)).symm
  refine absurd h ?_
  split
  case isTrue htwo =>
    simp only [List.mem_cons, List.not_mem_nil, or_false, not_or]
    exact ⟨hlong (by omega) (by omega), hlong (by omega) (by omega)⟩
  split
  case isTrue hthree =>
    simp only [List.mem_cons, List.not_mem_nil, or_false, not_or]
    exact ⟨hlong (by omega) (by omega), hlong (by omega) (by omega), hlong (by omega) (by omega)⟩
  case isFalse hfour =>
    simp only [List.mem_cons, List.not_mem_nil, or_false, not_or]
    exact ⟨hlong (by omega) (by omega), hlong (by omega) (by omega), hlong (by omega) (by omega),
      hlong (by omega) (by omega)⟩

end ProbeScript.Text
