import ProbeScript.Proofs.Number.Exact
import ProbeScript.Proofs.Number.Numeral

/-!
# Proofs/Number/Hexadecimal — hexadecimal digits read back

Reading the digits of a natural number from the most significant one gives the number back
(`ofHex_toDigits`), and there is no zero in front (`head?_toDigits_ne`).  Digits behind the point
come from a long division, which carries the remainder from digit to digit
(`ofHex_append_hexPlaces`); for a power of two it ends, so the text of a binary64 value is the value
(`hex_value`).  With a sign in front numerals tell integers apart (`signed_injective`): the
hexadecimal text of an integral number says which integer it is (`eq_of_hex_eq`), and so does the
decimal text of a safe one (`eq_of_text_eq`).
-/

namespace ProbeScript.Number

/-- The hexadecimal digits in the order of their values. -/
def hexAlphabet : List Char :=
  ['0', '1', '2', '3', '4', '5', '6', '7', '8', '9', 'a', 'b', 'c', 'd', 'e', 'f']

/-- The value of a hexadecimal digit: its place among the digits. -/
def digitValue (c : Char) : Nat := hexAlphabet.idxOf c

/-- The number with the given hexadecimal digits, the most significant one first. -/
def ofHex (digits : List Char) : Nat := digits.foldl (fun n c => 16 * n + digitValue c) 0

variable {a b k n : Nat} {i j : Int} {x y : Number}

/-! ## Digits -/

theorem digitChar_mem_hexAlphabet (h : n < 16) : n.digitChar ∈ hexAlphabet := by
  have hall : ∀ d : Fin 16, d.val.digitChar ∈ hexAlphabet := by decide
  exact hall ⟨n, h⟩

theorem digitValue_digitChar (h : n < 16) : digitValue n.digitChar = n := by
  have hall : ∀ d : Fin 16, digitValue d.val.digitChar = d := by decide
  exact hall ⟨n, h⟩

theorem ofHex_concat (digits : List Char) (c : Char) :
    ofHex (digits ++ [c]) = 16 * ofHex digits + digitValue c :=
  List.foldl_concat ..

/-- **The digits of a number are read back as the number.** -/
theorem ofHex_toDigits (n : Nat) : ofHex (Nat.toDigits 16 n) = n := by
  induction n using Nat.strongRecOn with
  | ind n ih =>
    rw [Nat.toDigits_eq_if (by decide)]
    split
    case isTrue hlt => exact (Nat.zero_add _).trans (digitValue_digitChar hlt)
    case isFalse hge =>
      rw [ofHex_concat, ih (n / 16) (by omega), digitValue_digitChar (Nat.mod_lt n (by decide))]
      exact Nat.div_add_mod n 16

theorem toDigits_subset (n : Nat) : Nat.toDigits 16 n ⊆ hexAlphabet := fun c hc =>
  forall_mem_toDigits (by decide) (fun _ => digitChar_mem_hexAlphabet) n c hc

/-- **A numeral has no zero in front**, unless it is that of zero. -/
theorem head?_toDigits_ne (h : n ≠ 0) : (Nat.toDigits 16 n).head? ≠ some '0' := by
  induction n using Nat.strongRecOn with
  | ind n ih =>
    rw [Nat.toDigits_eq_if (by decide)]
    split
    case isTrue hlt =>
      intro hhead
      exact h (Nat.digitChar_eq_zero.mp (Option.some.inj hhead))
    case isFalse hge =>
      rw [List.head?_append_of_ne_nil _ Nat.toDigits_ne_nil]
      exact ih (n / 16) (by omega) (by omega)

theorem hexNat_injective : Function.Injective hexNat := by
  intro m n h
  rw [← ofHex_toDigits m, ← ofHex_toDigits n]
  exact congrArg ofHex (String.ofList_injective h)

theorem repr_injective : Function.Injective Nat.repr := by
  intro m n h
  rw [Nat.repr_eq_ofList_toDigits, Nat.repr_eq_ofList_toDigits] at h
  rw [← Nat.ofDigitChars_ten_toDigits (n := m), String.ofList_injective h,
    Nat.ofDigitChars_ten_toDigits]

/-! ## Digits behind the point -/

/-- **Long division.**  Digits in front of the first places of `a / b` and these places come to the
quotient of the whole, with as many zeros put behind the dividend. -/
theorem ofHex_append_hexPlaces (digits : List Char) (places : Nat) (h : a < b) :
    ofHex (digits ++ hexPlaces b places a) = (ofHex digits * b + a) * 16 ^ places / b := by
  have hpos : 0 < b := Nat.zero_lt_of_lt h
  induction places generalizing digits a with
  | zero =>
    rw [hexPlaces, List.append_nil, Nat.pow_zero, Nat.mul_one, Nat.mul_comm,
      Nat.mul_add_div hpos, Nat.div_eq_of_lt h, Nat.add_zero]
  | succ places ih =>
    have hdigit : 16 * a / b < 16 := Nat.div_lt_of_lt_mul (by omega)
    have hstep : (16 * ofHex digits + 16 * a / b) * b + 16 * a % b
        = 16 * (ofHex digits * b + a) := by
      rw [Nat.add_mul, Nat.add_assoc, Nat.mul_comm (16 * a / b), Nat.div_add_mod, Nat.mul_assoc,
        Nat.mul_add]
    rw [hexPlaces, List.append_cons, ih _ (Nat.mod_lt _ hpos), ofHex_concat,
      digitValue_digitChar hdigit, hstep, Nat.mul_comm 16, Nat.mul_assoc, Nat.pow_succ']

theorem length_hexPlaces (b places a : Nat) : (hexPlaces b places a).length = places := by
  induction places generalizing a with
  | zero => rfl
  | succ places ih => rw [hexPlaces, List.length_cons, ih]

theorem hexPlaces_subset (places : Nat) (h : a < b) : hexPlaces b places a ⊆ hexAlphabet :=
  fun c hc => forall_mem_hexPlaces (fun _ => digitChar_mem_hexAlphabet) places h c hc

/-- Where the division ends, the digits on both sides of the point come to the number with its point
moved to the end. -/
theorem ofHex_toDigits_append_hexPlaces {places : Nat} (hb : 0 < b) (h : b ∣ 16 ^ places) :
    ofHex (Nat.toDigits 16 (n / b) ++ hexPlaces b places (n % b)) * b = n * 16 ^ places := by
  rw [ofHex_append_hexPlaces _ _ (Nat.mod_lt n hb), ofHex_toDigits, Nat.div_add_mod']
  exact Nat.div_mul_cancel (Dvd.dvd.mul_left h n)

/-- A zero at the end can be left out: in lowest terms the division has ended before. -/
theorem dvd_of_getLast?_hexPlaces {places : Nat} (hb : 0 < b) (hcoprime : b.Coprime n)
    (h : b ∣ 16 ^ places) (hlast : (hexPlaces b places (n % b)).getLast? = some '0') :
    ∃ fewer, places = fewer + 1 ∧ b ∣ 16 ^ fewer := by
  obtain ⟨init, hinit⟩ := List.getLast?_eq_some_iff.mp hlast
  have hlength : places = init.length + 1 := by
    rw [← length_hexPlaces b places (n % b), hinit, List.length_append, List.length_singleton]
  have hvalue := ofHex_toDigits_append_hexPlaces (n := n) hb h
  have hzero : digitValue '0' = 0 := by decide
  rw [hinit, ← List.append_assoc, ofHex_concat, hzero, Nat.add_zero, Nat.mul_assoc, hlength,
    Nat.pow_succ', Nat.mul_left_comm n] at hvalue
  have hdvd : b ∣ n * 16 ^ init.length :=
    Dvd.intro_left _ (Nat.eq_of_mul_eq_mul_left (by decide : 0 < 16) hvalue)
  exact ⟨init.length, hlength, hcoprime.dvd_of_dvd_mul_left hdvd⟩

/-- So many places are enough for a power of two, and no fewer. -/
theorem two_pow_dvd_sixteen_pow_iff {places : Nat} : 2 ^ k ∣ 16 ^ places ↔ k ≤ 4 * places := by
  rw [show 16 = 2 ^ 4 from rfl, ← Nat.pow_mul]
  exact Nat.pow_dvd_pow_iff_le_right (by decide)

/-- **The hexadecimal text of a number is the number**, if the denominator is a power of two, as it
is in binary64: the digits on both sides of the point, read as one numeral, come to the number with
its point moved to the end.  No zero ends the digits behind the point. -/
theorem hex_value {q : Rat} (hden : q.den = 2 ^ k) : ∃ places : List Char,
    (finite q).hex = (if q.num < 0 then "-" else "") ++ hexNat (q.num.natAbs / q.den)
      ++ (if q.den = 1 then "" else "." ++ String.ofList places) ∧
    places ⊆ hexAlphabet ∧ places.getLast? ≠ some '0' ∧
    ofHex (Nat.toDigits 16 (q.num.natAbs / q.den) ++ places) * q.den
      = q.num.natAbs * 16 ^ places.length := by
  have hlog : q.den.log2 = k := by rw [hden, Nat.log2_two_pow]
  have hdvd : q.den ∣ 16 ^ ((q.den.log2 + 3) / 4) := by
    rw [hden, two_pow_dvd_sixteen_pow_iff, ← hden]
    omega
  have hrest : q.num.natAbs % q.den < q.den := Nat.mod_lt _ q.den_pos
  refine ⟨hexPlaces q.den ((q.den.log2 + 3) / 4) (q.num.natAbs % q.den), ?_,
    hexPlaces_subset _ hrest, fun hlast => ?_, ?_⟩
  · have hzero : q.num.natAbs % q.den = 0 ↔ q.den = 1 := by
      rw [← Nat.dvd_iff_mod_eq_zero]
      exact ⟨q.reduced.symm.eq_one_of_dvd, fun h => h ▸ Nat.one_dvd _⟩
    simp only [hex, hexFraction, hzero]
  · obtain ⟨fewer, hfewer, hdvd⟩ :=
      dvd_of_getLast?_hexPlaces q.den_pos q.reduced.symm hdvd hlast
    rw [hden, two_pow_dvd_sixteen_pow_iff] at hdvd
    omega
  · rw [length_hexPlaces, ofHex_toDigits_append_hexPlaces q.den_pos hdvd]

example : hex (.finite (mkRat (-161) 32)) = "-5.08" := by decide +kernel

/-! ## Integers with a sign in front -/

/-- The text of an integer whose absolute value is written as the given numeral. -/
def signed (numeral : Nat → String) (i : Int) : String :=
  (if i < 0 then "-" else "") ++ numeral i.natAbs

/-- A sign and a numeral without one say which integer it is. -/
theorem signed_injective {numeral : Nat → String} (hinj : Function.Injective numeral)
    (hminus : ∀ n, '-' ∉ (numeral n).toList) : Function.Injective (signed numeral) := by
  have hne (m n : Nat) : "-" ++ numeral m ≠ "" ++ numeral n := by
    intro h
    refine hminus n ?_
    rw [← String.empty_append (s := numeral n), ← h, String.toList_append]
    exact List.mem_append_left _ (by decide)
  intro i j h
  rw [signed, signed] at h
  split at h <;> split at h
  · have := hinj ((String.append_right_inj "-").mp h)
    omega
  · exact absurd h (hne _ _)
  · exact absurd h.symm (hne _ _)
  · have := hinj ((String.append_right_inj "").mp h)
    omega

theorem minus_notMem_hexNat (n : Nat) : '-' ∉ (hexNat n).toList := by
  rw [hexNat, String.toList_ofList]
  exact fun h => absurd (toDigits_subset n h) (by decide)

theorem minus_notMem_repr (n : Nat) : '-' ∉ n.repr.toList := by
  rw [Nat.toList_repr]
  exact fun h => absurd (Nat.isDigit_of_mem_toDigits (by decide) (by decide) h) (by decide)

theorem toString_eq_signed (i : Int) : toString i = signed Nat.repr i := by
  rw [Int.toString_eq_repr, Int.repr_eq_if, signed]
  split <;> split
  · omega
  · rw [String.empty_append]
    congr 1
    omega
  · congr 2
    omega
  · omega

/-! ## Integral numbers -/

theorem hex_of_isInteger (h : x.IsInteger i) : x.hex = signed hexNat i := by
  rcases h with rfl | ⟨rfl, rfl⟩
  · change (if i < 0 then "-" else "") ++ hexNat (i.natAbs / 1) ++ hexFraction (i.natAbs % 1) 1 = _
    rw [Nat.div_one, Nat.mod_one, hexFraction, if_pos rfl, String.append_empty, signed]
  · rfl

/-- **The hexadecimal text of an integral number says which integer it is.** -/
theorem eq_of_hex_eq (hx : x.IsInteger i) (hy : y.IsInteger j) (h : x.hex = y.hex) : i = j := by
  rw [hex_of_isInteger hx, hex_of_isInteger hy] at h
  exact signed_injective hexNat_injective minus_notMem_hexNat h

theorem text_of_isInteger (h : x.IsInteger i) (hsafe : i.natAbs ≤ maxSafe) :
    x.text = toString i := by
  rcases h with rfl | ⟨rfl, rfl⟩
  · exact if_pos ⟨rfl, hsafe⟩
  · rfl

/-- **The decimal text of a safe integer says which one it is.** -/
theorem eq_of_text_eq (hx : x.safeInt? = some i) (hy : y.safeInt? = some j)
    (h : x.text = y.text) : i = j := by
  obtain ⟨hx, hsafe⟩ := safeInt?_eq_some_iff.mp hx
  obtain ⟨hy, hsafe'⟩ := safeInt?_eq_some_iff.mp hy
  rw [text_of_isInteger hx hsafe, text_of_isInteger hy hsafe', toString_eq_signed,
    toString_eq_signed] at h
  exact signed_injective repr_injective minus_notMem_repr h

theorem IsInteger.neg (h : x.IsInteger i) : (-x).IsInteger (-i) := by
  rcases h with rfl | ⟨rfl, rfl⟩
  · change (if i = 0 then negZero else finite (-Rat.ofInt i)).IsInteger (-i)
    split
    case isTrue hzero => exact .inr ⟨rfl, by omega⟩
    case isFalse => exact .inl rfl
  · exact .inl rfl

end ProbeScript.Number
