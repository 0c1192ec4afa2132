/-!
# Number/Basic — binary64 values

Sizes, addresses, statuses and the numbers a grammar hands over are binary64 values.  A `Number` is
such a value read as mathematics: a rational number, one of the two infinities, or no number at all.
Zero is the one rational with two signs, so the negative zero has a constructor of its own.
-/

namespace ProbeScript

/-- A binary64 value.  `finite` holds the rational number the value stands for; rounding to a
representable one is the business of `Number.nearest`. -/
inductive Number where
  | nan
  | infinity (negative : Bool)
  | negZero
  | finite (value : Rat)
  deriving DecidableEq

namespace Number

/-- The value of an integer. -/
def ofInt (n : Int) : Number := .finite (Rat.ofInt n)

instance : Inhabited Number := ⟨ofInt 0⟩

instance (n : Nat) : OfNat Number n := ⟨ofInt n⟩

/-- A value is zero with either sign. -/
def isZero : Number → Bool
  | .negZero => true
  | .finite q => q.num == 0
  | .nan | .infinity _ => false

/-- The integer a value is, when it is one; both zeros are `0`. -/
def toInt? : Number → Option Int
  | .negZero => some 0
  | .finite q => if q.den = 1 then some q.num else none
  | .nan | .infinity _ => none

/-- The greatest integer up to which every integer is a binary64 value and has no neighbour that
rounds to it: one less than the fifty-third power of two. -/
def maxSafe : Nat := 9007199254740991

/-- The integer a value is, when it lies between `-maxSafe` and `maxSafe`. -/
def safeInt? (x : Number) : Option Int :=
  x.toInt?.filter fun n => n.natAbs ≤ maxSafe

/-- The value with the opposite sign. -/
def neg : Number → Number
  | .nan => .nan
  | .infinity negative => .infinity (!negative)
  | .negZero => ofInt 0
  | .finite q => if q.num = 0 then .negZero else .finite (-q)

instance : Neg Number := ⟨neg⟩

theorem toInt?_ofInt (n : Int) : (ofInt n).toInt? = some n := by
  simp [ofInt, toInt?, Rat.ofInt]

/-- Both zeros are the integer zero, and nothing else is. -/
theorem isZero_eq_true_iff {x : Number} : x.isZero = true ↔ x.toInt? = some 0 := by
  cases x with
  | finite q =>
    simp only [isZero, toInt?, beq_iff_eq]
    constructor
    · intro h
      simp [Rat.num_eq_zero.mp h]
    · split <;> simp
  | _ => simp [isZero, toInt?]

theorem isZero_ofInt (n : Int) : (ofInt n).isZero = (n == 0) := rfl

theorem ofInt_injective {m n : Int} (h : ofInt m = ofInt n) : m = n := by
  simpa [toInt?_ofInt] using congrArg toInt? h

end Number

end ProbeScript
