import CampaignControl.Admission.Plan
import CampaignControl.ConfigDocument
import CampaignControl.Pass
import CampaignControl.Policy.Requeue
import CampaignControl.Settings

/-!
# Admission passes

A pass over a campaign creates the work units that the campaign is due, brings its configuration
document up to date and reports on the campaign. A campaign that is suspended is drained, and
one whose policy is invalid is rejected.

A work unit that is there already is adopted. When a work unit cannot be created the pass goes
no further, reports what it has done and then fails.
-/

namespace CampaignControl
namespace Admission

/-- What a pass has done, for the report on the campaign. -/
structure Outcome where
  /-- How many work units have been created. -/
  created : Nat := 0
  /-- How many work units are live. -/
  live : Nat := 0
  batchCount : Nat := 0
  message : Option String := none
  deriving DecidableEq, Repr, Inhabited

/-- The condition on whether the campaign can be admitted. -/
def validity (status : Condition.Status) (reason message : String) (now : Instant) : Condition :=
  { type := Campaign.configurationValid, status, reason, message, since := now }

/-- The status of a campaign after a pass. -/
def Outcome.report (o : Outcome) (admittedAt : Option Instant) (now : Instant)
    (s : Campaign.Status) : Campaign.Status :=
  { s with
    batchCount := o.batchCount
    activeWorkUnits := o.live
    message := o.message
    lastAdmission := if 0 < o.created then admittedAt else s.lastAdmission
    conditions := (validity .holds "Valid" "" now).set s.conditions }

section
variable (settings : Settings) (campaign : Campaign) (correlation : Uid) (now : Instant)

/-- Makes known what has happened to an object of the campaign. -/
def publish (entity : Key) (payload : Event.Payload) : Pass Unit :=
  Pass.publish { correlation, entity, campaign := campaign.key, payload }

/-- Changes the campaign as it is stored. The change answers nothing if it has nothing to
write. -/
def modifyCampaign (change : Campaign → Campaign × Option Unit) : Pass Unit := do
  let _ ← Pass.modify campaign.key settings.maxConflictRetries.toNat change
  return ()

/-- Reports on a pass in the status of the campaign. -/
def writeStatus (outcome : Outcome) (admittedAt : Option Instant) : Pass Unit :=
  modifyCampaign settings campaign fun c =>
    let status := outcome.report admittedAt now c.status
    ({ c with status }, if status = c.status then none else some ())

/-- Reports that the campaign cannot be admitted, and makes it known even if the report could
not be written. -/
def reject (e : Error) : Pass Unit := do
  let reason := e.message
  let condition := validity .fails "InvalidConfiguration" reason now
  let _ ← Pass.outcome <| modifyCampaign settings campaign fun c =>
    let isNews := condition.isNews c.status.conditions || c.status.message != some reason
    ({ c with status :=
        { c.status with
          message := some reason, conditions := condition.set c.status.conditions } },
      if isNews then some () else none)
  publish campaign correlation campaign.key (.admissionRejected reason)

/-- The filter for the work units of the campaign: those that it owns, or those with its name as
their label while it has no identity. -/
def unitFilter : Filter :=
  match campaign.metadata.uid with
  | some uid => { space := some campaign.key.space, owner := some uid }
  | none => { space := some campaign.key.space, labels := [(Campaign.label, campaign.key.name)] }

/-- Deletes work units, as far as they are still there. -/
def drainAll : List Key → Pass Unit
  | [] => return ()
  | key :: rest => do
    match ← Pass.lift (Pass.delete .workUnit key) with
    | .ok () => publish campaign correlation key .drainRequested
    | .error e => if e.isNotFound then pure () else throw (.store e)
    drainAll rest

/-- Deletes the live work units of a suspended campaign. -/
def drain (units : List WorkUnit) : Pass Outcome := do
  let keys := (plan campaign units [] now).drain
  drainAll campaign correlation keys
  Pass.measure (.active campaign.key 0)
  return { batchCount := campaign.status.batchCount
           message := some s!"suspended; drained {keys.length} work unit(s)" }

/-- Creates the configuration document, or brings it up to date. -/
def putDocument (batches : List Batch) : Pass Unit := do
  let fresh := document campaign batches
  match ← Pass.lift (Pass.create fresh) with
  | .ok _ => return ()
  | .error e =>
    if e.isAlreadyExists then
      let _ ← Pass.modify fresh.metadata.key settings.maxConflictRetries.toNat (refresh fresh)
      return ()
    else throw (.store e)

/-- Creates work units one by one, up to the first that cannot be created. -/
def createAll (outcome : Outcome) : List WorkUnit → Pass (Outcome × Option StoreError)
  | [] => return (outcome, none)
  | unit :: rest => do
    match ← Pass.lift (Pass.create unit) with
    | .ok _ =>
      Pass.measure (.admitted campaign.key)
      publish campaign correlation unit.key
        (.admitted unit.spec.batchIndex unit.spec.repositories.length)
      createAll { outcome with created := outcome.created + 1, live := outcome.live + 1 } rest
    | .error e =>
      if e.isAlreadyExists then
        publish campaign correlation unit.key (.adopted unit.spec.batchIndex)
        createAll { outcome with live := outcome.live + 1 } rest
      else return (outcome, some e)

/-- When to pass the campaign again. -/
def Outcome.action (outcome : Outcome) (policy : RequeuePolicy) : Action :=
  if 0 < outcome.created then .afterSeconds policy.afterAdmission
  else if 0 < outcome.live then .afterSeconds policy.whileActive
  else .afterSeconds policy.idle

/-- Creates the work units of a campaign with these batches beside those that there are. -/
def admitAll (units : List WorkUnit) (batches : List Batch) : Pass Action := do
  putDocument settings campaign batches
  let plan := plan campaign units batches now
  let (outcome, failure) ← createAll campaign correlation
    { live := plan.running, batchCount := batches.length } plan.create
  Pass.measure (.active campaign.key outcome.live)
  writeStatus settings campaign now outcome (some now)
  match failure with
  | some e => throw (.store e)
  | none => return outcome.action settings.requeue

/-- The pass over a campaign that is there to stay. -/
def passOver : Pass Action := do
  let units : List WorkUnit ← Pass.list (unitFilter campaign)
  if campaign.spec.suspended then
    let outcome ← drain campaign correlation now units
    writeStatus settings campaign now outcome none
    return .afterSeconds settings.requeue.idle
  else
    match ← Pass.lift (.request (.discover campaign)) with
    | .error reason => throw (.discovery reason)
    | .ok repositories =>
      match Partition.batches repositories campaign.spec.policy with
      | .error e =>
        reject settings campaign correlation now e
        throw e
      | .ok batches => admitAll settings campaign correlation now units batches

end

/-- One pass over the campaign at a key. There is nothing to do for one that has gone or is
going. -/
def pass (settings : Settings) (key : Key) (now : Instant) : Pass Action := do
  match ← Pass.find? key with
  | none => return .awaitChange
  | some (campaign : Campaign) =>
    if campaign.metadata.isDeleting then return .awaitChange
    else
      let correlation ← Pass.correlate
      passOver settings campaign correlation now

/-- A pass over a campaign, which is counted when it fails. -/
def reconcile (settings : Settings) (key : Key) (now : Instant) :
    Program (Except Error Action) := do
  let result ← (pass settings key now).run
  match result with
  | .ok _ => return result
  | .error e =>
    Program.request (.measure (.failed .campaign e.severity))
    return result

end Admission
end CampaignControl
