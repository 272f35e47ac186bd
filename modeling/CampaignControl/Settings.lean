import CampaignControl.Policy.Requeue
import CampaignControl.Policy.Retention

/-!
# Settings

What the operator of the controller decides. Settings can be given in part: the rest is taken
from the defaults (`Settings.refined?`).
-/

namespace CampaignControl

structure Settings where
  /-- How many targets are passed at a time. -/
  workerCount : Nat := 4
  /-- The milliseconds between two listings of everything. -/
  resyncInterval : Nat := 300000
  /-- How many events are kept for a slow subscriber. -/
  eventCapacity : Nat := 1024
  /-- How often a change is tried in the face of version conflicts. -/
  maxConflictRetries : UInt32 := 5
  requeue : RequeuePolicy := {}
  retry : RetryPolicy := {}
  retention : RetentionPolicy := {}
  deriving DecidableEq, Repr, Inhabited

namespace Settings

/-- Sets the number of workers, which is at least one. -/
def withWorkerCount (s : Settings) (count : Nat) : Settings :=
  { s with workerCount := max count 1 }

def toJson (s : Settings) : Json :=
  .object [("event_capacity", Json.ofNat s.eventCapacity),
    ("max_conflict_retries", Json.ofUInt32 s.maxConflictRetries),
    ("requeue", s.requeue.toJson), ("resync_interval_ms", Json.ofNat s.resyncInterval),
    ("retention", s.retention.toJson), ("retry", s.retry.toJson),
    ("worker_count", Json.ofNat s.workerCount)]

def ofJson? (j : Json) : Option Settings := do
  let fields ← j.fields? ["worker_count", "resync_interval_ms", "event_capacity",
    "max_conflict_retries", "requeue", "retry", "retention"]
  let workerCount ← Json.required fields "worker_count" Json.toNat?
  let resyncInterval ← Json.required fields "resync_interval_ms" Json.toNat?
  let eventCapacity ← Json.required fields "event_capacity" Json.toNat?
  let maxConflictRetries ← Json.required fields "max_conflict_retries" Json.toUInt32?
  let requeue ← Json.required fields "requeue" RequeuePolicy.ofJson?
  let retry ← Json.required fields "retry" RetryPolicy.ofJson?
  let retention ← Json.required fields "retention" RetentionPolicy.ofJson?
  some { workerCount, resyncInterval, eventCapacity, maxConflictRetries, requeue, retry,
         retention }

/-- The default settings with the given fields laid over them. -/
def refined? (layer : Json) : Option Settings :=
  ofJson? (Json.refine (toJson {}) layer)

end Settings
end CampaignControl
