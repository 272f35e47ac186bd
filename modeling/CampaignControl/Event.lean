import CampaignControl.WorkUnit

/-!
# Events

What a pass makes known to subscribers. The events of one pass have a correlation identity in
common, and each has a key by which a subscriber can tell that it has seen the event before.
-/

namespace CampaignControl

/-- What has happened. -/
inductive Event.Payload where
  /-- A work unit has been created for a batch of so many repositories. -/
  | admitted (batchIndex repositories : Nat)
  /-- A work unit for a batch was there already. -/
  | adopted (batchIndex : Nat)
  | executionCreated (execution : Key) (workerIndex : Nat)
  | phaseChanged (old new : WorkUnit.Phase)
  /-- The execution has gone, and with it the work unit. -/
  | orphanRemoved
  /-- A finished work unit has been kept long enough. -/
  | retentionExpired
  /-- The execution has been deleted and the finalizer is released. -/
  | finalized
  /-- A live work unit of a suspended campaign has been deleted. -/
  | drainRequested
  /-- A campaign cannot be admitted as it is configured. -/
  | admissionRejected (reason : String)
  deriving DecidableEq, Repr, Inhabited

namespace Event.Payload

def label : Payload → String
  | admitted .. => "admitted"
  | adopted _ => "adopted"
  | executionCreated .. => "execution_created"
  | phaseChanged .. => "phase_changed"
  | orphanRemoved => "orphan_removed"
  | retentionExpired => "retention_expired"
  | finalized => "finalized"
  | drainRequested => "drain_requested"
  | admissionRejected _ => "admission_rejected"

/-- What tells two events about one object apart. -/
def occurrence : Payload → String
  | p@(phaseChanged old new) => s!"{p.label}:{old}:{new}"
  | p => p.label

/-- Whether there is room for another work unit after the event. -/
def freesCapacity : Payload → Bool
  | phaseChanged _ new => new.isTerminal
  | orphanRemoved | finalized | drainRequested => true
  | admitted .. | adopted _ | executionCreated .. | retentionExpired | admissionRejected _ => false

def toJson : Payload → Json
  | admitted batchIndex repositories =>
    .object [("Admitted", .object [("batch_index", Json.ofNat batchIndex),
      ("repositories", Json.ofNat repositories)])]
  | adopted batchIndex => .object [("Adopted", .object [("batch_index", Json.ofNat batchIndex)])]
  | executionCreated execution workerIndex =>
    .object [("ExecutionCreated", .object [("execution", execution.toJson),
      ("worker_index", Json.ofNat workerIndex)])]
  | phaseChanged old new =>
    .object [("PhaseChanged", .object [("from", .string old.name), ("to", .string new.name)])]
  | orphanRemoved => .string "OrphanRemoved"
  | retentionExpired => .string "RetentionExpired"
  | finalized => .string "Finalized"
  | drainRequested => .string "DrainRequested"
  | admissionRejected reason =>
    .object [("AdmissionRejected", .object [("reason", .string reason)])]

/-- The payload of this name, with contents if it has any. -/
def ofCase? (name : String) (contents : Json) : Option Payload :=
  match name with
  | "Admitted" => do
    let fields ← contents.toFields?
    let batchIndex ← Json.required fields "batch_index" Json.toNat?
    let repositories ← Json.required fields "repositories" Json.toNat?
    some (admitted batchIndex repositories)
  | "Adopted" => do
    let fields ← contents.toFields?
    some (adopted (← Json.required fields "batch_index" Json.toNat?))
  | "ExecutionCreated" => do
    let fields ← contents.toFields?
    let execution ← Json.required fields "execution" Key.ofJson?
    let workerIndex ← Json.required fields "worker_index" Json.toNat?
    some (executionCreated execution workerIndex)
  | "PhaseChanged" => do
    let fields ← contents.toFields?
    let old ← Json.required fields "from" WorkUnit.Phase.ofJson?
    let new ← Json.required fields "to" WorkUnit.Phase.ofJson?
    some (phaseChanged old new)
  | "AdmissionRejected" => do
    let fields ← contents.toFields?
    some (admissionRejected (← Json.required fields "reason" Json.toText?))
  | _ =>
    if contents = .null then
      [orphanRemoved, retentionExpired, finalized, drainRequested].find?
        (·.toJson == .string name)
    else none

def ofJson? : Json → Option Payload
  | .string name => ofCase? name .null
  | .object [(name, contents)] => ofCase? name contents
  | _ => none

end Event.Payload

structure Event where
  version : Nat := 1
  /-- Shared by the events of one pass. -/
  correlation : Uid
  /-- The object that the event is about. -/
  entity : Key
  campaign : Key
  payload : Event.Payload
  deriving DecidableEq, Repr, Inhabited

namespace Event

/-- The key by which the event is known. -/
def idempotencyKey (e : Event) : String := e.entity.text ++ ":" ++ e.payload.occurrence

def toJson (e : Event) : Json :=
  .object [("meta", .object [("campaign", e.campaign.toJson),
      ("correlation_id", Json.ofUid e.correlation), ("entity", e.entity.toJson),
      ("idempotency_key", .string e.idempotencyKey), ("version", Json.ofNat e.version)]),
    ("payload", e.payload.toJson)]

end Event
end CampaignControl
