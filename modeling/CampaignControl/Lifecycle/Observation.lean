import CampaignControl.Dispatch
import CampaignControl.Execution
import CampaignControl.WorkUnit

/-!
# Observations

What an execution reports, and what that makes of its work unit. A failure is looked for first,
then completion, then activity, so the order of the conditions does not matter. An observation
changes a work unit only when it moves its phase forward (`WorkUnit.advance?`).
-/

namespace CampaignControl

namespace Execution

/-- The condition of this type, if it holds. -/
def holding? (type : String) (s : Status) : Option Condition :=
  (Condition.find? type s.conditions).filter Condition.holds

def hasFailed (s : Status) : Bool := (holding? failure s).isSome

def hasCompleted (s : Status) : Bool := (holding? complete s).isSome || s.completionTime.isSome

def isActive (s : Status) : Bool := 0 < s.active

/-- What the condition of failure says: its message, or else its reason. -/
def failureMessage? (s : Status) : Option String :=
  (holding? failure s).map fun c => if c.message.isEmpty then c.reason else c.message

/-- When the execution finished: its completion time, or else when it failed or completed. -/
def finishedAt? (s : Status) : Option Instant :=
  s.completionTime <|> (holding? failure s).map (·.since) <|>
    (holding? complete s).map (·.since)

end Execution

inductive Observation where
  | failed (message : Option String) (time : Option Instant)
  | completed (time : Option Instant)
  | active
  | pending
  deriving DecidableEq, Repr, Inhabited

namespace Observation

/-- What the status of an execution amounts to. -/
def ofStatus (s : Execution.Status) : Observation :=
  if Execution.hasFailed s then failed (Execution.failureMessage? s) (Execution.finishedAt? s)
  else if Execution.hasCompleted s then completed (Execution.finishedAt? s)
  else if Execution.isActive s then active
  else pending

/-- The name of the case in the field `observation`, with its contents beside it. -/
def toJson : Observation → Json
  | failed message time =>
    .object [("at", Json.ofOption Json.ofInstant time),
      ("message", Json.ofOption Json.ofText message), ("observation", .string "failed")]
  | completed time =>
    .object [("at", Json.ofOption Json.ofInstant time), ("observation", .string "completed")]
  | active => .object [("observation", .string "active")]
  | pending => .object [("observation", .string "pending")]

def ofJson? (j : Json) : Option Observation := do
  let fields ← j.toFields?
  let time := Json.optional fields "at" (Json.toOption? Json.toInstant?) none
  match ← Json.required fields "observation" Json.toText? with
  | "failed" =>
    some (failed (← Json.optional fields "message" (Json.toOption? Json.toText?) none) (← time))
  | "completed" => some (completed (← time))
  | "active" => some active
  | "pending" => some pending
  | _ => none

/-- The phase of a work unit whose execution is observed so. -/
def phase : Observation → WorkUnit.Phase
  | failed .. => .failed
  | completed _ => .succeeded
  | active => .running
  | pending => .pending

/-- The conditions after the work has ended with a condition of this type. -/
def finish (type reason message : String) (now : Instant) (conditions : List Condition) :
    List Condition :=
  let stopped : Condition :=
    { type := WorkUnit.runningCondition, status := .fails, reason, since := now }
  let ended : Condition := { type, status := .holds, reason, message, since := now }
  ended.set (stopped.set conditions)

/-- What a work unit with these repositories records of an observation, apart from its phase and
its start. -/
def record (repositories : List String) (now : Instant) (s : WorkUnit.Status) :
    Observation → WorkUnit.Status
  | failed message time =>
    { s with
      completionTime := some (time.getD now)
      message
      conditions := finish WorkUnit.failedCondition "ExecutionFailed" (message.getD "") now
        s.conditions }
  | completed time =>
    { s with
      completionTime := some (time.getD now)
      processedRepositories := repositories
      message := none
      conditions := finish WorkUnit.completeCondition "ExecutionComplete" "" now s.conditions }
  | active =>
    let running : Condition :=
      { type := WorkUnit.runningCondition, status := .holds, reason := "ExecutionActive"
        since := now }
    { s with conditions := running.set s.conditions }
  | pending => s

end Observation

namespace WorkUnit

/-- The work unit after an observation made now of an execution that has started at the given
time. There is none where the observation does not move the phase forward. -/
def advance? (u : WorkUnit) (o : Observation) (started : Option Instant) (now : Instant) :
    Option WorkUnit :=
  if u.status.phase = o.phase ∨ !u.status.phase.canMoveTo o.phase then none
  else
    let moved : Status :=
      { u.status with
        phase := o.phase
        startTime := u.status.startTime <|> some (started.getD now) }
    some { u with status := o.record u.spec.repositories now moved }

/-- The execution for a work unit. Its workers are told their index and the name of the
configuration document. -/
def toExecution (u : WorkUnit) : Execution where
  metadata :=
    { key := u.key
      labels := u.metadata.labels
      owner := u.metadata.asOwner Kind.workUnit.name }
  spec :=
    { template := u.spec.template
      workerIndex := u.spec.batchIndex
      configDocument := u.spec.configDocument
      repositories := u.spec.repositories
      env := [(Dispatch.documentVariable, u.spec.configDocument),
        (Dispatch.indexVariable, toString u.spec.batchIndex)]
      ttlSecondsAfterFinished := u.spec.retentionSeconds }

end WorkUnit
end CampaignControl
