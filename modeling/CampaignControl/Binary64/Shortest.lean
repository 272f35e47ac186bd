import CampaignControl.Binary64

/-!
# The shortest decimal of a binary64 value

A decimal `digits * 10 ^ scale` reads back as a value when it lies in the interval of numbers
that round to the value: between the midpoints to its two neighbours, the midpoints included
when the mantissa is even. `Shortest.decimal` takes the coarsest decimal grid that has a point
in this interval, and on it the point nearest to the value.

How such a decimal is laid out as text is a matter of the output it stands in, and is given by
a `Layout`.
-/

namespace CampaignControl
namespace Binary64

/-- The decimal `digits * 10 ^ scale`. -/
structure Decimal where
  digits : Nat
  scale : Int
  deriving DecidableEq, Repr, Inhabited

namespace Shortest

/-- How many decimal digits a natural number has; zero has one. -/
def digitCount (n : Nat) : Nat := (Nat.toDigits 10 n).length

/-- The greatest `k` with `10 ^ k ≤ num / den`, for a positive quotient. -/
def log10 (num den : Nat) : Int :=
  if den ≤ num then (digitCount (num / den) : Int) - 1
  else -(digitCount ((den + num - 1) / num - 1) : Int)

/-- The point of the grid of multiples of `10 ^ scale` that is nearest to the value among those
that read back as it. -/
def nearest? (x : Binary64) (scale : Int) : Option Nat :=
  -- the value and its midpoints, in units of a quarter of the last bit of the mantissa
  let middle := 4 * x.mantissa
  let low := if x.mantissa = leastNormal ∧ -1074 < x.exponent then middle - 1 else middle - 2
  let high := middle + 2
  let exponent := x.exponent - 2
  -- one step of the grid is `step / unit` of these units
  let unit := (if 0 ≤ exponent then Nat.pow 2 exponent.toNat else 1) *
    (if 0 ≤ scale then 1 else Nat.pow 10 (-scale).toNat)
  let step := (if 0 ≤ exponent then 1 else Nat.pow 2 (-exponent).toNat) *
    (if 0 ≤ scale then Nat.pow 10 scale.toNat else 1)
  let readsBack (n : Nat) : Bool :=
    if x.mantissa % 2 = 0 then low * unit ≤ n * step ∧ n * step ≤ high * unit
    else low * unit < n * step ∧ n * step < high * unit
  let below := middle * unit / step
  let above := below + 1
  match readsBack below, readsBack above with
  | false, false => none
  | true, false => some below
  | false, true => some above
  | true, true =>
    let twice := 2 * (middle * unit)
    let centre := (below + above) * step
    if twice < centre then some below
    else if centre < twice then some above
    else some (below + below % 2)

/-- Drops trailing zeros from the digits; `fuel` bounds their number. -/
def trim : Nat → Decimal → Decimal
  | 0, d => d
  | fuel + 1, d =>
    if d.digits ≠ 0 ∧ d.digits % 10 = 0 then trim fuel ⟨d.digits / 10, d.scale + 1⟩ else d

/-- The shortest decimal that reads back as the magnitude of a value other than zero, and the
nearest to it of these. Seventeen digits always suffice. -/
def decimal (x : Binary64) : Decimal :=
  let greatest := log10 x.ratio.1 x.ratio.2
  let shortest? := (List.range 17).findSome? fun n : Nat =>
    let scale := greatest - n
    (nearest? x scale).map fun digits => trim 17 ⟨digits, scale⟩
  shortest?.getD ⟨0, 0⟩

end Shortest

/-- How a decimal is written. -/
structure Layout where
  /-- The exponents, in scientific notation, at which the digits are written out in place. -/
  positional : Int → Bool
  /-- Whether a whole number written in place ends in `.0`. -/
  wholeEnd : Bool

namespace Layout

private def zeros (n : Nat) : List Char := List.replicate n '0'

/-- The digits with the decimal point in place. -/
def inPlace (layout : Layout) (digits : List Char) (scale : Int) : List Char :=
  if 0 ≤ scale then
    digits ++ zeros scale.toNat ++ (if layout.wholeEnd then ['.', '0'] else [])
  else
    let places := (-scale).toNat
    if places < digits.length then
      digits.take (digits.length - places) ++ '.' :: digits.drop (digits.length - places)
    else
      '0' :: '.' :: zeros (places - digits.length) ++ digits

/-- One digit before the point and a signed exponent. -/
def scientific (digits : List Char) (exponent : Int) : List Char :=
  digits.take 1 ++ (if digits.length ≤ 1 then [] else '.' :: digits.drop 1) ++
    'e' :: (if exponent < 0 then '-' else '+') :: Nat.toDigits 10 exponent.natAbs

/-- The text of a decimal without its sign. -/
def magnitude (layout : Layout) (d : Decimal) : List Char :=
  let digits := Nat.toDigits 10 d.digits
  let exponent := d.scale + digits.length - 1
  if layout.positional exponent then layout.inPlace digits d.scale
  else scientific digits exponent

end Layout

/-- The text of a value: a minus sign if it is negative, and its shortest decimal. -/
def text (layout : Layout) (x : Binary64) : List Char :=
  (if x.negative then ['-'] else []) ++
    layout.magnitude (if x.isZero then ⟨0, 0⟩ else Shortest.decimal x)

end Binary64
end CampaignControl
