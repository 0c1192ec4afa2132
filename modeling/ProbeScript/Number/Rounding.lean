import ProbeScript.Number.Basic

/-!
# Number/Rounding — the binary64 value nearest to a rational

The positive binary64 values are the numbers `m * 2 ^ e` with `m ≤ 2 ^ 53` and `-1074 ≤ e` that lie
below `2 ^ 1024`.  `Number.nearest` finds the one nearest to a rational: the binade of the rational
fixes the unit `2 ^ e`, and the quotient by that unit is rounded to an integer, a tie to the even
one.  Arithmetic is exact arithmetic followed by this rounding.
-/

namespace ProbeScript.Number

/-- The integer nearest to `a / b`; a tie goes to the even neighbour. -/
def roundDiv (a b : Nat) : Nat :=
  if 2 * (a % b) < b then a / b
  else if b < 2 * (a % b) then a / b + 1
  else a / b + a / b % 2

/-- The exponent `k` with `2 ^ k ≤ a / b < 2 ^ (k + 1)`, for positive `a` and `b`. -/
def binade (a b : Nat) : Int :=
  let k : Int := (a.log2 : Int) - (b.log2 : Int)
  if a <<< (-k).toNat < b <<< k.toNat then k - 1 else k

/-- The exponent of the unit in which a value of the binade of `a / b` is counted. -/
def unitExponent (a b : Nat) : Int := max (-1074) (binade a b - 52)

/-- The value `m * 2 ^ e`, negated on request. -/
def ofUnits (negative : Bool) (m : Nat) (e : Int) : Number :=
  if m = 0 then (if negative then .negZero else ofInt 0)
  else if 1 <<< 1024 ≤ m <<< e.toNat then .infinity negative
  else
    let n : Int := (m <<< e.toNat : Nat)
    .finite (mkRat (if negative then -n else n) (1 <<< (-e).toNat))

/-- The binary64 value nearest to a rational number. -/
def nearest (q : Rat) : Number :=
  if q.num = 0 then ofInt 0
  else
    let a := q.num.natAbs
    let e := unitExponent a q.den
    ofUnits (decide (q.num < 0)) (roundDiv (a <<< (-e).toNat) (q.den <<< e.toNat)) e

/-- The value a decimal numeral `digits / 10 ^ places` is read as. -/
def ofDecimal (digits : Int) (places : Nat) : Number := nearest (mkRat digits (Nat.pow 10 places))

/-- The difference of two values: exact, then rounded. -/
def sub : Number → Number → Number
  | .nan, _ => .nan
  | _, .nan => .nan
  | .infinity s, .infinity t => if s = t then .nan else .infinity s
  | .infinity s, _ => .infinity s
  | _, .infinity t => .infinity (!t)
  | .negZero, .negZero => ofInt 0
  | .negZero, .finite q => if q.num = 0 then .negZero else nearest (-q)
  | .finite p, .negZero => .finite p
  | .finite p, .finite q => nearest (p - q)

instance : Sub Number := ⟨sub⟩

/-- A tie goes to the even neighbour: `2 ^ 53 + 1` is no binary64 value. -/
example : nearest 9007199254740993 = ofInt 9007199254740992 := by decide +kernel

end ProbeScript.Number
