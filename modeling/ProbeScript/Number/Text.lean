import ProbeScript.Number.Rounding

/-!
# Number/Text — numbers in decimal and in hexadecimal

In decimal a number is written with the fewest digits that read back as it, and of those with the
digits nearest to it.  Numbers from `10 ^ -6` up to `10 ^ 21` are written positionally, all others
with a signed exponent.  In hexadecimal a number is written positionally and in full.  Either way an
integral number has no point.
-/

namespace ProbeScript

/-- The decimal number `digits * 10 ^ exponent`. -/
structure Decimal where
  digits : Nat
  exponent : Int
  deriving DecidableEq

namespace Decimal

/-- The same number without zeros at the end of its digits; `n` bounds how many are dropped. -/
def strip : Nat → Decimal → Decimal
  | 0, d => d
  | n + 1, d => if d.digits % 10 = 0 then strip n ⟨d.digits / 10, d.exponent + 1⟩ else d

/-- The binary64 value a decimal number is read as. -/
def read (d : Decimal) : Number :=
  .nearest (mkRat (d.digits * Nat.pow 10 d.exponent.toNat : Nat) (Nat.pow 10 (-d.exponent).toNat))

/-- The exponent `k` with `10 ^ (k - 1) ≤ a / b < 10 ^ k`, for a binary64 value `a / b > 0`. -/
def magnitude (a b : Nat) : Int :=
  if b ≤ a then (Nat.toDigits 10 (a / b)).length
  else 1 - (((List.range 400).find? fun j => b ≤ a * Nat.pow 10 j).getD 400 : Nat)

/-- The decimal number of `places` digits that reads back as `a / b`, the nearer one if both
neighbours of `a / b` do; of two equally near ones the even one. -/
def withPlaces? (a b places : Nat) : Option Decimal :=
  let g := magnitude a b - places
  let n := a * Nat.pow 10 (-g).toNat
  let d := b * Nat.pow 10 g.toNat
  let low := n / d
  let isLower := 2 * (n % d) < d ∨ (2 * (n % d) = d ∧ low % 2 = 0)
  let nearer := if isLower then [low, low + 1] else [low + 1, low]
  (nearer.map (Decimal.mk · g)).find? fun c => c.read = .finite (mkRat a b)

/-- The decimal number of fewest digits that reads back as the binary64 value `a / b > 0`.
Seventeen digits always suffice; the number written in full is the fallback. -/
def shortest (a b : Nat) : Decimal :=
  let full : Decimal := ⟨a * Nat.pow 5 b.log2, -(b.log2 : Int)⟩
  strip 400 (((List.range 17).findSome? fun p => withPlaces? a b (p + 1)).getD full)

/-- The text of a positive decimal number. -/
def text (d : Decimal) : String :=
  let digits := Nat.toDigits 10 d.digits
  let count : Int := digits.length
  let point := count + d.exponent
  if count ≤ point ∧ point ≤ 21 then
    String.ofList (digits ++ List.replicate (point - count).toNat '0')
  else if 0 < point ∧ point ≤ 21 then
    String.ofList (digits.take point.toNat ++ '.' :: digits.drop point.toNat)
  else if -6 < point ∧ point ≤ 0 then
    String.ofList ('0' :: '.' :: List.replicate (-point).toNat '0' ++ digits)
  else
    let exponent := point - 1
    let sign := if exponent < 0 then '-' else '+'
    let fraction := if digits.length = 1 then [] else '.' :: digits.drop 1
    String.ofList (digits.take 1 ++ fraction ++ 'e' :: sign :: Nat.toDigits 10 exponent.natAbs)

end Decimal

namespace Number

/-- The decimal text of a number; the negative zero is written as zero. -/
def text : Number → String
  | .nan => "NaN"
  | .infinity false => "Infinity"
  | .infinity true => "-Infinity"
  | .negZero => "0"
  | .finite q =>
    -- Every digit of a safe integer counts, so its shortest form is the integer itself.
    if q.den = 1 ∧ q.num.natAbs ≤ maxSafe then toString q.num
    else (if q.num < 0 then "-" else "") ++ (Decimal.shortest q.num.natAbs q.den).text

/-- The hexadecimal digits of a natural number, in lower case. -/
def hexNat (n : Nat) : String := String.ofList (Nat.toDigits 16 n)

/-- The first hexadecimal digits behind the point of `a / b`, for `a < b`. -/
def hexPlaces (b : Nat) : Nat → Nat → List Char
  | 0, _ => []
  | places + 1, a => Nat.digitChar (16 * a / b) :: hexPlaces b places (16 * a % b)

/-- The hexadecimal fraction `a / b` with its point, nothing for zero.  The denominator of a
binary64 value is a power of two, and each digit takes four factors of two from it: so there are no
further digits, and the last one is not zero if the fraction is in lowest terms. -/
def hexFraction (a b : Nat) : String :=
  if a = 0 then "" else "." ++ String.ofList (hexPlaces b ((b.log2 + 3) / 4) a)

/-- The hexadecimal text of a number, with a minus sign in front where it is negative: all its
digits, however many there are on either side of the point. -/
def hex : Number → String
  | .finite q =>
    (if q.num < 0 then "-" else "") ++ hexNat (q.num.natAbs / q.den)
      ++ hexFraction (q.num.natAbs % q.den) q.den
  | x => x.text

end Number

end ProbeScript
