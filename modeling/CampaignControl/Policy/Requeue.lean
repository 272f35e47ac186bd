import CampaignControl.Json.Record

/-!
# Requeue and retry policies

What happens to a target after a pass. After one that succeeded it is passed again after a delay, or
not before something changes.

The delay after failed passes doubles with each of them, up to a limit. It is computed in
binary64: the two numbers of the policy are rounded to 53 significant bits, doubling is exact,
and the result is cut to what 64 bits hold.
-/

namespace CampaignControl

/-- What to do with a target after a pass. -/
inductive Action where
  /-- Pass the target again after so many nanoseconds. -/
  | requeue (nanoseconds : Nat)
  /-- Wait until something else calls for a pass. -/
  | awaitChange
  deriving DecidableEq, Repr, Inhabited

namespace Action

/-- The nanoseconds until the next pass, if one is wanted. -/
def delay? : Action → Option Nat
  | requeue nanoseconds => some nanoseconds
  | awaitChange => none

/-- A pass after so many seconds. -/
def afterSeconds (seconds : Nat) : Action := requeue (seconds * 1_000_000_000)

def toJson : Action → Json
  | requeue nanoseconds => .object [("requeue", Span.toJson ⟨nanoseconds⟩)]
  | awaitChange => .string "awaitChange"

end Action

/-- The seconds to the next pass in each situation. -/
structure RequeuePolicy where
  /-- After new work units have been created. -/
  afterAdmission : Nat := 10
  /-- While something is pending or running. -/
  whileActive : Nat := 30
  /-- While there is nothing to do. -/
  idle : Nat := 300
  /-- At most, until the retention of a finished work unit ends. -/
  maxTerminalWait : Nat := 3600
  deriving DecidableEq, Repr, Inhabited

namespace RequeuePolicy

/-- A pass when the retention of a finished work unit ends: at once, when nothing of it is left,
and no later than the policy says. -/
def untilExpiry (p : RequeuePolicy) (remaining : Span) : Action :=
  .requeue (min remaining.nanoseconds.toNat (p.maxTerminalWait * 1_000_000_000))

def toJson (p : RequeuePolicy) : Json :=
  .object [("after_admission_secs", Json.ofNat p.afterAdmission),
    ("idle_secs", Json.ofNat p.idle), ("max_terminal_wait_secs", Json.ofNat p.maxTerminalWait),
    ("while_active_secs", Json.ofNat p.whileActive)]

def ofJson? (j : Json) : Option RequeuePolicy := do
  let fields ← j.fields? ["after_admission_secs", "while_active_secs", "idle_secs",
    "max_terminal_wait_secs"]
  let afterAdmission ← Json.required fields "after_admission_secs" Json.toNat?
  let whileActive ← Json.required fields "while_active_secs" Json.toNat?
  let idle ← Json.required fields "idle_secs" Json.toNat?
  let maxTerminalWait ← Json.required fields "max_terminal_wait_secs" Json.toNat?
  some { afterAdmission, whileActive, idle, maxTerminalWait }

end RequeuePolicy

structure RetryPolicy where
  /-- The delay after the first failure, in milliseconds. -/
  baseDelay : Nat := 1000
  /-- The longest delay, in milliseconds. -/
  maxDelay : Nat := 300000
  deriving DecidableEq, Repr, Inhabited

namespace RetryPolicy

/-- The milliseconds to wait after so many failures in a row. -/
def delay (p : RetryPolicy) (failures : Nat) : Nat :=
  if failures = 0 then 0
  else
    let doubled := Binary64.roundNat p.baseDelay * Nat.pow 2 (min (failures - 1) 63)
    min (min doubled (Binary64.roundNat p.maxDelay)) 0xffffffffffffffff

def toJson (p : RetryPolicy) : Json :=
  .object [("base_delay_ms", Json.ofNat p.baseDelay), ("max_backoff_ms", Json.ofNat p.maxDelay)]

def ofJson? (j : Json) : Option RetryPolicy := do
  let fields ← j.fields? ["base_delay_ms", "max_backoff_ms"]
  let baseDelay ← Json.required fields "base_delay_ms" Json.toNat?
  let maxDelay ← Json.required fields "max_backoff_ms" Json.toNat?
  some { baseDelay, maxDelay }

end RetryPolicy
end CampaignControl
