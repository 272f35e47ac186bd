import CampaignControl.Json.Basic

/-!
# Number literals

What a number written in JSON denotes. A literal without fraction and exponent that fits is
whole. Any other literal is evaluated in binary64: its digits are gathered into a 64-bit
significand, digits that no longer fit are dropped, and the significand is then multiplied or
divided by the binary64 value of a power of ten. Each of these steps rounds, so the result can
differ from the nearest binary64 value in its last bit.
-/

namespace CampaignControl
namespace Json

/-- A number as it is written: the digits before and after the point, and the exponent. -/
structure Literal where
  negative : Bool
  whole : List Char
  fraction : Option (List Char) := none
  exponent : Option (Bool × List Char) := none

namespace Literal

/-- The value of a decimal digit. -/
def digit (c : Char) : Nat := c.toNat - '0'.toNat

/-- The natural number that a string of digits denotes. -/
def natural (digits : List Char) : Nat := digits.foldl (fun n c => 10 * n + digit c) 0

/-- Takes digits into a significand while it stays below `2 ^ 64`; answers the significand and
the digits that are left. -/
def gather (significand : Nat) : List Char → Nat × List Char
  | [] => (significand, [])
  | c :: rest =>
    let next := 10 * significand + digit c
    if next < 0x10000000000000000 then gather next rest else (significand, c :: rest)

/-- A binary64 value times a power of ten. An exponent beyond -308 is taken in steps of 308;
one beyond 308 has no finite result unless the value is zero. -/
def scale (x : Binary64) (exponent : Int) : Option Binary64 :=
  if exponent < -308 then
    if x.isZero then some x
    else do
      let step ← Binary64.pow10 308
      scale (← x.div step) (exponent + 308)
  else if exponent < 0 then do x.div (← Binary64.pow10 (-exponent).toNat)
  else if exponent ≤ 308 then do x.mul (← Binary64.pow10 exponent.toNat)
  else if x.isZero then some x
  else none
termination_by (-exponent).toNat
decreasing_by omega

/-- The binary64 value of a literal, if it is finite. -/
def binary (l : Literal) : Option Binary64 := do
  let (significand, dropped) := gather 0 l.whole
  let fraction := l.fraction.getD []
  let (significand, rest) := gather significand fraction
  let exponent : Int := match l.exponent with
    | none => 0
    | some (negative, digits) => if negative then -natural digits else natural digits
  let x ← Binary64.round false significand 1
  let x ← scale x (dropped.length - (fraction.length - rest.length : Nat) + exponent)
  return { x with negative := l.negative }

/-- The number that a literal denotes, unless it is beyond the binary64 range. -/
def number (l : Literal) : Option Number :=
  let n := natural l.whole
  match l.fraction, l.exponent with
  | none, none =>
    if l.negative then
      if 0 < n ∧ n ≤ 0x8000000000000000 then some (.whole (-n)) else l.binary.map .binary
    else if n < 0x10000000000000000 then some (.whole n)
    else l.binary.map .binary
  | _, _ => l.binary.map .binary

end Literal
end Json
end CampaignControl
