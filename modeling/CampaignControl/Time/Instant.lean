import CampaignControl.Time.Calendar

/-!
# Instants and spans

A `Timestamp` is a second of Coordinated Universal Time and a nanosecond in it, in the years
from -262143 to 262142. Nanoseconds beyond the first thousand million are those of a leap second
after the second. An `Instant` is a timestamp whose leap second, if it lies in one, comes at the end
of a minute, where it has a name as the second 60. A leap second within a minute goes by the name of
the second after it, and is taken for that where it is read (`Timestamp.settled`).

A `Span` is a signed number of nanoseconds. Adding a span to an instant leaves out leap
seconds, unless the instant lies in one; the difference of two instants counts a leap second
in which one of them lies.
-/

namespace CampaignControl

/-- A signed length of time. -/
structure Span where
  nanoseconds : Int
  deriving DecidableEq, Repr, Inhabited

namespace Span

def zero : Span := ⟨0⟩

/-- The longest span: `2 ^ 63 - 1` milliseconds. -/
def longest : Span := ⟨0x7fffffffffffffff * 1_000_000⟩

def ofSeconds (seconds : Int) : Span := ⟨seconds * 1_000_000_000⟩

def ofMilliseconds (milliseconds : Int) : Span := ⟨milliseconds * 1_000_000⟩

/-- The whole seconds, toward zero. -/
def seconds (s : Span) : Int := s.nanoseconds.tdiv 1_000_000_000

/-- The nanoseconds beyond the whole seconds, with the sign of the span. -/
def subsecond (s : Span) : Int := s.nanoseconds.tmod 1_000_000_000

/-- The whole milliseconds, toward zero. -/
def milliseconds (s : Span) : Int := s.nanoseconds.tdiv 1_000_000

end Span

namespace Timestamp

/-- The first second of the year -262143. -/
def firstSecond : Int := -8334601228800

/-- The last second of the year 262142. -/
def lastSecond : Int := 8210266876799

/-- Whether there is this second, and in it or in the leap second after it this nanosecond. -/
def InRange (second : Int) (nano : Nat) : Prop :=
  firstSecond ≤ second ∧ second ≤ lastSecond ∧ nano < 2_000_000_000

instance (second : Int) (nano : Nat) : Decidable (InRange second nano) := by
  unfold InRange; infer_instance

end Timestamp

/-- A point in time. -/
structure Timestamp where
  /-- The second, counted from the start of the year 1970. -/
  second : Int
  /-- The nanosecond within the second, or within the leap second after it. -/
  nano : Nat
  inRange : Timestamp.InRange second nano := by decide
  deriving DecidableEq, Repr

namespace Timestamp

theorem first_le (t : Timestamp) : firstSecond ≤ t.second := t.inRange.1

theorem le_last (t : Timestamp) : t.second ≤ lastSecond := t.inRange.2.1

theorem nano_lt (t : Timestamp) : t.nano < 2_000_000_000 := t.inRange.2.2

/-- Whether the timestamp lies in a leap second. -/
def inLeapSecond (t : Timestamp) : Bool := 1_000_000_000 ≤ t.nano

/-- The timestamp does not lie in a leap second within a minute. -/
def IsClear (t : Timestamp) : Prop := t.nano < 1_000_000_000 ∨ t.second % 60 = 59

instance (t : Timestamp) : Decidable t.IsClear := by unfold IsClear; infer_instance

/-- The calendar day. -/
def date (t : Timestamp) : Date := Date.ofNumber (t.second / 86400)

/-- The second within the day. -/
def secondOfDay (t : Timestamp) : Nat := (t.second % 86400).toNat

example : firstSecond = Date.number ⟨-262143, 1, 1⟩ * 86400 := by decide
example : lastSecond = Date.number ⟨262142, 12, 31⟩ * 86400 + 86399 := by decide

end Timestamp

/-- A point in time that its text denotes. -/
structure Instant extends Timestamp where
  isClear : toTimestamp.IsClear := by decide
  deriving DecidableEq, Repr

namespace Instant

/-- The start of the year 1970. -/
def epoch : Instant := { second := 0, nano := 0 }

instance : Inhabited Instant := ⟨epoch⟩

/-- Whether there is an instant with these nanoseconds in this second: less than one second, or
less than two in the last second of a minute. -/
def Fits (second : Int) (nano : Nat) : Prop :=
  nano < 1_000_000_000 ∨ (nano < 2_000_000_000 ∧ second % 60 = 59)

instance (second : Int) (nano : Nat) : Decidable (Fits second nano) := by
  unfold Fits; infer_instance

theorem fits (t : Instant) : Fits t.second t.nano :=
  t.isClear.imp_right fun hlast => ⟨t.nano_lt, hlast⟩

/-- The instant at this second and nanosecond, if there is one. -/
def at? (second : Int) (nano : Nat) : Option Instant :=
  if h : Timestamp.InRange second nano ∧ Fits second nano then
    some { second, nano, inRange := h.1, isClear := h.2.imp_right And.right }
  else none

@[simp] theorem at?_self (t : Instant) : at? t.second t.nano = some t := by
  simp [at?, t.inRange, t.fits]

/-- The instant at a second and any number of nanoseconds from it. -/
def normalize? (second nano : Int) : Option Instant :=
  at? (second + nano / 1_000_000_000) (nano % 1_000_000_000).toNat

/-- The instant a span later, if it exists. -/
def add? (t : Instant) (s : Span) : Option Instant :=
  let nano : Int := t.nano
  if t.inLeapSecond then
    if 0 < s.seconds ∨ (0 < s.subsecond ∧ 2_000_000_000 ≤ nano + s.subsecond) then
      normalize? (t.second + s.seconds) (nano - 1_000_000_000 + s.subsecond)
    else if s.seconds < 0 then
      normalize? (t.second + 1 + s.seconds) (nano - 1_000_000_000 + s.subsecond)
    else at? t.second (nano + s.subsecond).toNat
  else normalize? (t.second + s.seconds) (nano + s.subsecond)

/-- The span from one instant to another. Between two times of day a leap second counts when
the earlier one lies in it, and one in which the later lies is not counted twice. -/
def since (t earlier : Instant) : Span :=
  let ofDay (i : Instant) : Int := i.second % 86400
  let leap : Int :=
    if ofDay earlier < ofDay t ∧ earlier.inLeapSecond then 1
    else if ofDay t < ofDay earlier ∧ t.inLeapSecond then -1
    else 0
  ⟨(t.second - earlier.second + leap) * 1_000_000_000 + ((t.nano : Int) - earlier.nano)⟩

end Instant

/-- The instant that the text of a timestamp denotes: a leap second within a minute becomes the second
after it. -/
def Timestamp.settled (t : Timestamp) : Instant :=
  if h : t.IsClear then { toTimestamp := t, isClear := h }
  else
    { second := t.second + 1
      nano := t.nano - 1_000_000_000
      inRange := by
        have := t.inRange
        unfold IsClear InRange lastSecond at *
        omega
      isClear := .inl (by have := t.nano_lt; simp only; omega) }

/-- Times that can be written: timestamps, and instants among them. -/
class Moment (τ : Type) where
  timestamp : τ → Timestamp

instance : Moment Timestamp := ⟨id⟩

instance : Moment Instant := ⟨Instant.toTimestamp⟩

@[simp] theorem Moment.timestamp_instant (t : Instant) : timestamp t = t.toTimestamp := rfl

end CampaignControl
