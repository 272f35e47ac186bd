/-!
# Binary64 arithmetic

The finite values of the binary64 format and the operations on them, each of which rounds the
exact rational result to the nearest value, ties to the even mantissa. Everything is computed
with natural numbers, so a value can be looked into and an operation can be reasoned about.

`Binary64.round` is the one place where rounding happens. It has no answer for a magnitude
that rounds beyond the largest finite value.
-/

namespace CampaignControl

/-- A finite binary64 value, `mantissa * 2 ^ exponent` with a sign. In a value made by
`Binary64.round` the mantissa has at most 53 bits, the exponent is at least -1074, and the
mantissa has all 53 bits unless the exponent is -1074. -/
structure Binary64 where
  negative : Bool
  mantissa : Nat
  exponent : Int
  deriving DecidableEq, Repr, Inhabited

namespace Binary64

/-- The quotient of two natural numbers, rounded to the nearest one, ties to even. -/
def divEven (num den : Nat) : Nat :=
  let q := num / den
  let twice := 2 * (num % den)
  if twice < den then q
  else if den < twice then q + 1
  else q + q % 2

/-- The numerator and denominator of `num / den / 2 ^ exponent`. -/
def scaled (num den : Nat) (exponent : Int) : Nat × Nat :=
  if 0 ≤ exponent then (num, den * Nat.pow 2 exponent.toNat)
  else (num * Nat.pow 2 (-exponent).toNat, den)

/-- The least mantissa of 53 bits. -/
def leastNormal : Nat := 0x10000000000000

/-- The exponent at which `num / den` has a mantissa of 53 bits, but at least -1074. -/
def exponentFor (num den : Nat) : Int :=
  let guess : Int := (num.log2 : Int) - den.log2 - 52
  let (n, d) := scaled num den guess
  max (if n < leastNormal * d then guess - 1 else guess) (-1074)

/-- The value nearest to `num / den`, unless that is beyond the largest finite value. -/
def round (negative : Bool) (num den : Nat) : Option Binary64 :=
  if num = 0 then some ⟨negative, 0, -1074⟩
  else
    let exponent := exponentFor num den
    let (n, d) := scaled num den exponent
    let mantissa := divEven n d
    let (mantissa, exponent) :=
      if mantissa = 2 * leastNormal then (leastNormal, exponent + 1) else (mantissa, exponent)
    if 971 < exponent then none else some ⟨negative, mantissa, exponent⟩

/-- The numerator and denominator of the magnitude. -/
def ratio (x : Binary64) : Nat × Nat :=
  if 0 ≤ x.exponent then (x.mantissa * Nat.pow 2 x.exponent.toNat, 1)
  else (x.mantissa, Nat.pow 2 (-x.exponent).toNat)

/-- Zero, with the sign that a sum of nothing has. -/
def zero : Binary64 := ⟨false, 0, -1074⟩

def isZero (x : Binary64) : Bool := x.mantissa == 0

def mul (x y : Binary64) : Option Binary64 :=
  round (x.negative != y.negative) (x.ratio.1 * y.ratio.1) (x.ratio.2 * y.ratio.2)

/-- The quotient by a value other than zero. -/
def div (x y : Binary64) : Option Binary64 :=
  round (x.negative != y.negative) (x.ratio.1 * y.ratio.2) (x.ratio.2 * y.ratio.1)

def add (x y : Binary64) : Option Binary64 :=
  let signed (z : Binary64) (n : Nat) : Int := if z.negative then -n else n
  let sum := signed x (x.ratio.1 * y.ratio.2) + signed y (y.ratio.1 * x.ratio.2)
  let negative := if sum = 0 then x.negative && y.negative else decide (sum < 0)
  round negative sum.natAbs (x.ratio.2 * y.ratio.2)

/-- The value nearest to `10 ^ n`. -/
def pow10 (n : Nat) : Option Binary64 := round false (Nat.pow 10 n) 1

/-- Equality of the numbers denoted: the two zeros are equal. -/
def equal (x y : Binary64) : Bool := x == y || (x.isZero && y.isZero)

/-- A natural number rounded to the nearest one of at most 53 significant bits, ties to even.
This is what becomes of a whole number that is taken as a binary64 value. -/
def roundNat (n : Nat) : Nat :=
  let unit := Nat.pow 2 (n.log2 - 52)
  divEven n unit * unit

end Binary64
end CampaignControl
