import CampaignControl.WorkUnit

/-!
# Retention

How long the record of a finished work unit is kept: the policy, and what is left of the retention
of a work unit.
-/

namespace CampaignControl

structure RetentionPolicy where
  /-- The seconds for which a record without a time of its own is kept. -/
  defaultWindow : Int64 := 7200
  /-- The seconds that are added to a record's own time. -/
  safetyBuffer : Int64 := 1800
  deriving DecidableEq, Repr, Inhabited

namespace RetentionPolicy

/-- The number of whole seconds in the longest span. -/
def mostSeconds : Int := 9223372036854775

/-- A span of so many seconds, or the longest span where there is no such span. -/
def saturated (seconds : Int) : Span :=
  if -mostSeconds ≤ seconds ∧ seconds ≤ mostSeconds then .ofSeconds seconds else .longest

/-- How long a record is kept after its completion, by the seconds it asks for itself. -/
def window (p : RetentionPolicy) (own : Option Int64) : Span :=
  match own with
  | some seconds => saturated (min (max seconds.toInt 0 + p.safetyBuffer.toInt) 0x7fffffffffffffff)
  | none => saturated p.defaultWindow.toInt

def toJson (p : RetentionPolicy) : Json :=
  .object [("default_window_secs", Json.ofInt64 p.defaultWindow),
    ("safety_buffer_secs", Json.ofInt64 p.safetyBuffer)]

def ofJson? (j : Json) : Option RetentionPolicy := do
  let fields ← j.fields? ["default_window_secs", "safety_buffer_secs"]
  let defaultWindow ← Json.required fields "default_window_secs" Json.toInt64?
  let safetyBuffer ← Json.required fields "safety_buffer_secs" Json.toInt64?
  some { defaultWindow, safetyBuffer }

end RetentionPolicy

namespace WorkUnit

/-- What is left of the retention of a finished work unit. A retention that ends beyond the last
instant is the longest span. -/
def retentionLeft? (u : WorkUnit) (policy : RetentionPolicy) (now : Instant) : Option Span :=
  if u.status.phase.isTerminal then
    u.status.completionTime.map fun completed =>
      match completed.add? (policy.window u.spec.retentionSeconds) with
      | some deadline => deadline.since now
      | none => .longest
  else none

/-- Whether the retention of a finished work unit has ended. -/
def isExpired (u : WorkUnit) (policy : RetentionPolicy) (now : Instant) : Bool :=
  match u.retentionLeft? policy now with
  | some left => left.nanoseconds ≤ 0
  | none => false

end WorkUnit
end CampaignControl
