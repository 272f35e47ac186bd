import CampaignControl.Condition
import CampaignControl.Object

/-!
# Work units

The record of one batch of a campaign, from its admission to the end of its retention. Its phase
only moves forward (`WorkUnit.Phase.canMoveTo`).
-/

namespace CampaignControl

inductive WorkUnit.Phase where
  | pending
  | running
  | succeeded
  | failed
  deriving DecidableEq, Repr, Inhabited

namespace WorkUnit.Phase

/-- All phases, in the order in which they are come to. -/
def all : List Phase := [pending, running, succeeded, failed]

def name : Phase → String
  | pending => "Pending"
  | running => "Running"
  | succeeded => "Succeeded"
  | failed => "Failed"

instance : ToString Phase := ⟨name⟩

def ofName? (name : String) : Option Phase := all.find? (·.name == name)

def ofJson? (j : Json) : Option Phase := j.toCase?.bind ofName?

/-- Whether no other phase comes after this one. -/
def isTerminal : Phase → Bool
  | succeeded | failed => true
  | pending | running => false

/-- Whether a work unit in this phase may be in the other one next. -/
def canMoveTo (old new : Phase) : Bool :=
  old == new || old == pending || (old == running && new.isTerminal)

end WorkUnit.Phase

structure WorkUnit.Spec where
  /-- The name of the campaign. -/
  campaign : String
  repositories : List String
  /-- The position of the batch, which is also the index of its worker. -/
  batchIndex : Nat
  /-- What is lower runs earlier. -/
  priority : Int64
  template : Json := .null
  retentionSeconds : Option Int64 := none
  /-- The name of the configuration document. -/
  configDocument : String
  deriving DecidableEq, Repr, Inhabited

structure WorkUnit.Status (τ : Type := Instant) where
  phase : WorkUnit.Phase := .pending
  startTime : Option τ := none
  completionTime : Option τ := none
  /-- The key of the execution, once it has been created. -/
  execution : Option Key := none
  processedRepositories : List String := []
  failedRepositories : List String := []
  message : Option String := none
  conditions : List (Condition τ) := []
  deriving DecidableEq, Repr, Inhabited

structure WorkUnit (τ : Type := Instant) where
  metadata : Metadata τ
  spec : WorkUnit.Spec
  status : WorkUnit.Status τ := {}
  deriving DecidableEq, Repr, Inhabited

namespace WorkUnit

/-- The label that carries the batch index. -/
def batchIndexLabel : String := "shoal.dev/batch-index"

/-- The finalizer that holds a work unit until its execution has been deleted. -/
def finalizer : String := "shoal.dev/execution-cleanup"

/-- The type of the condition that a work unit is created with. -/
def admitted : String := "Admitted"

/-- The types of the conditions that follow the phase. -/
def runningCondition : String := "Running"

@[inherit_doc runningCondition] def completeCondition : String := "Complete"

@[inherit_doc runningCondition] def failedCondition : String := "Failed"

def key (u : WorkUnit) : Key := u.metadata.key

/-- Whether the work unit is pending or running. -/
def isLive (u : WorkUnit) : Bool := !u.status.phase.isTerminal

/-- The key of the campaign. -/
def campaignKey (u : WorkUnit) : Key := { space := u.metadata.key.space, name := u.spec.campaign }

def Spec.toJson (s : Spec) : Json :=
  .object [("batchIndex", Json.ofNat s.batchIndex), ("campaign", .string s.campaign),
    ("configDocument", .string s.configDocument), ("execution", s.template),
    ("priority", Json.ofInt64 s.priority), ("repositories", Json.ofStrings s.repositories),
    ("retentionSeconds", Json.ofOption Json.ofInt64 s.retentionSeconds)]

def Spec.ofJson? (j : Json) : Option Spec := do
  let fields ← j.fields? ["campaign", "repositories", "batchIndex", "priority", "execution",
    "retentionSeconds", "configDocument"]
  let campaign ← Json.required fields "campaign" Json.toText?
  let repositories ← Json.required fields "repositories" Json.toStrings?
  let batchIndex ← Json.required fields "batchIndex" Json.toNat?
  let priority ← Json.required fields "priority" Json.toInt64?
  let template ← Json.optional fields "execution" some .null
  let retentionSeconds ←
    Json.optional fields "retentionSeconds" (Json.toOption? Json.toInt64?) none
  let configDocument ← Json.required fields "configDocument" Json.toText?
  some { campaign, repositories, batchIndex, priority, template, retentionSeconds,
         configDocument }

def Status.toJson {τ : Type} [Moment τ] (s : Status τ) : Json :=
  .object [("completionTime", Json.ofOption Json.ofInstant s.completionTime),
    ("conditions", Condition.listToJson s.conditions),
    ("executionRef", Json.ofOption Key.toJson s.execution),
    ("failedRepositories", Json.ofStrings s.failedRepositories),
    ("message", Json.ofOption Json.ofText s.message), ("phase", .string s.phase.name),
    ("processedRepositories", Json.ofStrings s.processedRepositories),
    ("startTime", Json.ofOption Json.ofInstant s.startTime)]

def Status.ofJson? (j : Json) : Option Status := do
  let fields ← j.fields? ["phase", "startTime", "completionTime", "executionRef",
    "processedRepositories", "failedRepositories", "message", "conditions"]
  let phase ← Json.optional fields "phase" Phase.ofJson? .pending
  let startTime ← Json.optional fields "startTime" (Json.toOption? Json.toInstant?) none
  let completionTime ← Json.optional fields "completionTime" (Json.toOption? Json.toInstant?) none
  let execution ← Json.optional fields "executionRef" (Json.toOption? Key.ofJson?) none
  let processedRepositories ← Json.optional fields "processedRepositories" Json.toStrings? []
  let failedRepositories ← Json.optional fields "failedRepositories" Json.toStrings? []
  let message ← Json.optional fields "message" (Json.toOption? Json.toText?) none
  let conditions ← Json.optional fields "conditions" (Json.toList? Condition.ofJson?) []
  some { phase, startTime, completionTime, execution, processedRepositories, failedRepositories,
         message, conditions }

/-- The fields apart from the metadata. -/
def body {τ : Type} [Moment τ] (u : WorkUnit τ) : List (String × Json) :=
  [("spec", u.spec.toJson), ("status", u.status.toJson)]

instance : Resource WorkUnit where
  kind := .workUnit
  metadata := metadata
  setMetadata m u := { u with metadata := m }
  body := body
  ofBody? metadata fields := do
    let spec ← Json.required fields "spec" Spec.ofJson?
    let status ← Json.optional fields "status" Status.ofJson? {}
    some { metadata, spec, status }

def ofJson? (j : Json) : Option WorkUnit := Resource.ofJson? ["metadata", "spec", "status"] j

end WorkUnit
end CampaignControl
