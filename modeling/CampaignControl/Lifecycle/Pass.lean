import CampaignControl.Lifecycle.Observation
import CampaignControl.Policy.Retention
import CampaignControl.Pass
import CampaignControl.Settings

/-!
# Lifecycle passes

A pass over a work unit moves it on by one step. A work unit that is being deleted is released
when its execution has been deleted. Any other gets its finalizer, its execution and the key of
the execution recorded, in this order, and then follows what the execution reports. A work unit
whose execution has gone is deleted, and so is a finished one whose retention has ended.
-/

namespace CampaignControl
namespace Lifecycle

section
variable (settings : Settings) (correlation : Uid) (now : Instant)

/-- Makes known what has happened to a work unit. -/
def publish (unit : WorkUnit) (payload : Event.Payload) : Pass Unit :=
  Pass.publish { correlation, entity := unit.key, campaign := unit.campaignKey, payload }

/-- Changes a work unit as it is stored. -/
def modifyUnit {β : Type} (key : Key) (change : WorkUnit → WorkUnit × Option β) :
    Pass (Option (WorkUnit × Option β)) :=
  Pass.modify key settings.maxConflictRetries.toNat change

/-- The work unit with the finalizer, and whether that is news. -/
def guard (unit : WorkUnit) : WorkUnit × Option Unit :=
  if unit.metadata.hasFinalizer WorkUnit.finalizer then (unit, none)
  else ({ unit with metadata := unit.metadata.addFinalizer WorkUnit.finalizer }, some ())

/-- The work unit without the finalizer, and whether that is news. -/
def release (unit : WorkUnit) : WorkUnit × Option Unit :=
  if unit.metadata.hasFinalizer WorkUnit.finalizer then
    ({ unit with metadata := unit.metadata.removeFinalizer WorkUnit.finalizer }, some ())
  else (unit, none)

/-- The work unit with an execution recorded, unless there is one, and whether that is news. -/
def recordExecution (execution : Key) (unit : WorkUnit) : WorkUnit × Option Unit :=
  if unit.status.execution.isSome then (unit, none)
  else
    let condition : Condition :=
      { type := WorkUnit.admitted, status := .holds, reason := "ExecutionCreated"
        message := s!"execution {execution} created", since := now }
    ({ unit with status :=
        { unit.status with
          execution := some execution, conditions := condition.set unit.status.conditions } },
      some ())

/-- The work unit after an observation, and the phase that it has left. -/
def follow (observation : Observation) (started : Option Instant) (unit : WorkUnit) :
    WorkUnit × Option WorkUnit.Phase :=
  match unit.advance? observation started now with
  | some moved => (moved, some unit.status.phase)
  | none => (unit, none)

/-- Deletes the execution of a work unit and takes the finalizer from it. The execution has the
key of the work unit even if it has not been recorded yet. -/
def finalize (unit : WorkUnit) : Pass Unit := do
  if unit.metadata.hasFinalizer WorkUnit.finalizer then
    match ← Pass.lift (Pass.delete .execution (unit.status.execution.getD unit.key)) with
    | .ok () => pure ()
    | .error e => if e.isNotFound then pure () else throw (.store e)
    let _ ← modifyUnit settings unit.key release
    publish correlation unit .finalized

/-- Deletes a work unit for a reason, and finalizes it right away if it is still there. -/
def deleteRecord (unit : WorkUnit) (reason : Event.Payload) : Pass Unit := do
  match ← Pass.lift (Pass.delete .workUnit unit.key) with
  | .error e => if e.isNotFound then return () else throw (.store e)
  | .ok () =>
    publish correlation unit reason
    match ← Pass.find? unit.key with
    | none => return ()
    | some (current : WorkUnit) =>
      if current.metadata.isDeleting then finalize settings correlation current else return ()

/-- Keeps a finished work unit until its retention has ended, and deletes it then. -/
def retainOrClean (unit : WorkUnit) : Pass Action := do
  match unit.retentionLeft? settings.retention now with
  | some left =>
    if left.nanoseconds ≤ 0 then
      deleteRecord settings correlation unit .retentionExpired
      return .awaitChange
    else return settings.requeue.untilExpiry left
  | none => return .afterSeconds settings.requeue.idle

/-- Creates the execution of a work unit, or finds it there, and records it. There is no result
when the work unit has gone meanwhile. -/
def startExecution (unit : WorkUnit) : Pass (Option (WorkUnit × Execution)) := do
  let desired := unit.toExecution
  let execution ← match ← Pass.lift (Pass.create desired) with
    | .ok created => pure created
    | .error e => if e.isAlreadyExists then Pass.get desired.key else throw (.store e)
  match ← modifyUnit settings unit.key (recordExecution now execution.key) with
  | none => return none
  | some (updated, _) =>
    publish correlation updated (.executionCreated execution.key unit.spec.batchIndex)
    return some (updated, execution)

/-- Counts a work unit that has come to the end, and makes its new phase known. -/
def announce (unit : WorkUnit) (old : WorkUnit.Phase) : Pass Unit := do
  let new := unit.status.phase
  if new.isTerminal then
    let duration := match unit.status.startTime, unit.status.completionTime with
      | some started, some completed => some (completed.since started)
      | _, _ => none
    Pass.measure (.completed unit.campaignKey new duration)
  publish correlation unit (.phaseChanged old new)

/-- Takes over what the execution of a work unit reports. -/
def takeOver (key : Key) (execution : Execution) : Pass Action := do
  let observation := Observation.ofStatus execution.status
  match ← modifyUnit settings key (follow now observation execution.status.startTime) with
  | none => return .awaitChange
  | some (unit, left) =>
    match left with
    | some old => announce correlation unit old
    | none => pure ()
    if unit.status.phase.isTerminal then retainOrClean settings correlation now unit
    else return .afterSeconds settings.requeue.whileActive

/-- The pass over a work unit that has the finalizer. -/
def passOver (key : Key) (unit : WorkUnit) : Pass Action := do
  if unit.status.phase.isTerminal then retainOrClean settings correlation now unit
  else
    match unit.status.execution with
    | none =>
      match ← startExecution settings correlation now unit with
      | none => return .awaitChange
      | some (_, execution) => takeOver settings correlation now key execution
    | some recorded =>
      match ← Pass.find? recorded with
      | none =>
        deleteRecord settings correlation unit .orphanRemoved
        return .awaitChange
      | some execution => takeOver settings correlation now key execution

end

/-- One pass over the work unit at a key. -/
def pass (settings : Settings) (key : Key) (now : Instant) : Pass Action := do
  match ← Pass.find? key with
  | none => return .awaitChange
  | some (unit : WorkUnit) =>
    let correlation ← Pass.correlate
    if unit.metadata.isDeleting then
      finalize settings correlation unit
      return .awaitChange
    else if unit.metadata.hasFinalizer WorkUnit.finalizer then
      passOver settings correlation now key unit
    else
      match ← modifyUnit settings key guard with
      | none => return .awaitChange
      | some (guarded, _) => passOver settings correlation now key guarded

/-- A pass over a work unit, which is counted when it fails. -/
def reconcile (settings : Settings) (key : Key) (now : Instant) :
    Program (Except Error Action) := do
  let result ← (pass settings key now).run
  match result with
  | .ok _ => return result
  | .error e =>
    Program.request (.measure (.failed .workUnit e.severity))
    return result

end Lifecycle
end CampaignControl
