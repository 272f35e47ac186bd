import CampaignControl.Condition
import CampaignControl.Object

/-!
# Executions

An execution runs the batch of a work unit. It is created by the controller and reported on by
the substrate that runs it, through the counts, times and conditions of its status.
-/

namespace CampaignControl

structure Execution.Spec where
  template : Json := .null
  /-- The index of the batch in the configuration document. -/
  workerIndex : Nat
  /-- The name of the configuration document. -/
  configDocument : String
  repositories : List String := []
  env : List (String × String) := []
  ttlSecondsAfterFinished : Option Int64 := none
  deriving DecidableEq, Repr, Inhabited

structure Execution.Status (τ : Type := Instant) where
  /-- How many workers are running. -/
  active : UInt32 := 0
  succeeded : UInt32 := 0
  failed : UInt32 := 0
  startTime : Option τ := none
  completionTime : Option τ := none
  conditions : List (Condition τ) := []
  deriving DecidableEq, Repr, Inhabited

/-- An execution, which is a job with an index. -/
structure Execution (τ : Type := Instant) where
  metadata : Metadata τ
  spec : Execution.Spec
  status : Execution.Status τ := {}
  deriving DecidableEq, Repr, Inhabited

namespace Execution

/-- The type of the condition of an execution that has finished. -/
def complete : String := "Complete"

/-- The type of the condition of an execution that has given up. -/
def failure : String := "Failed"

/-- What an execution calls its kind of work. -/
def workload : String := "indexedJob"

def key (e : Execution) : Key := e.metadata.key

def Spec.toJson (s : Spec) : Json :=
  .object [("configDocument", .string s.configDocument), ("env", Json.ofTexts s.env),
    ("repositories", Json.ofStrings s.repositories), ("template", s.template),
    ("ttlSecondsAfterFinished", Json.ofOption Json.ofInt64 s.ttlSecondsAfterFinished),
    ("workerIndex", Json.ofNat s.workerIndex)]

def Spec.ofJson? (j : Json) : Option Spec := do
  let fields ← j.fields? ["template", "workerIndex", "configDocument", "repositories", "env",
    "ttlSecondsAfterFinished"]
  let template ← Json.optional fields "template" some .null
  let workerIndex ← Json.required fields "workerIndex" Json.toNat?
  let configDocument ← Json.required fields "configDocument" Json.toText?
  let repositories ← Json.optional fields "repositories" Json.toStrings? []
  let env ← Json.optional fields "env" Json.toTexts? []
  let ttlSecondsAfterFinished ←
    Json.optional fields "ttlSecondsAfterFinished" (Json.toOption? Json.toInt64?) none
  some { template, workerIndex, configDocument, repositories, env, ttlSecondsAfterFinished }

def Status.toJson {τ : Type} [Moment τ] (s : Status τ) : Json :=
  .object [("active", Json.ofUInt32 s.active),
    ("completionTime", Json.ofOption Json.ofInstant s.completionTime),
    ("conditions", Condition.listToJson s.conditions), ("failed", Json.ofUInt32 s.failed),
    ("startTime", Json.ofOption Json.ofInstant s.startTime),
    ("succeeded", Json.ofUInt32 s.succeeded)]

def Status.ofJson? (j : Json) : Option Status := do
  let fields ← j.fields? ["active", "succeeded", "failed", "startTime", "completionTime",
    "conditions"]
  let active ← Json.optional fields "active" Json.toUInt32? 0
  let succeeded ← Json.optional fields "succeeded" Json.toUInt32? 0
  let failed ← Json.optional fields "failed" Json.toUInt32? 0
  let startTime ← Json.optional fields "startTime" (Json.toOption? Json.toInstant?) none
  let completionTime ← Json.optional fields "completionTime" (Json.toOption? Json.toInstant?) none
  let conditions ←
    Json.optional fields "conditions" (Json.toList? (Condition.ofJsonBy? Json.toTaggedCase?)) []
  some { active, succeeded, failed, startTime, completionTime, conditions }

/-- The work of an execution: its kind, what is asked for, and what has become of it. -/
def workToJson {τ : Type} [Moment τ] (spec : Spec) (status : Status τ) : Json :=
  .object [("kind", .string workload), ("spec", spec.toJson), ("status", status.toJson)]

def workOfJson? (j : Json) : Option (Spec × Status) := do
  let fields ← j.fields? ["kind", "spec", "status"]
  let kind ← Json.required fields "kind" Json.toText?
  let spec ← Json.required fields "spec" Spec.ofJson?
  let status ← Json.optional fields "status" Status.ofJson? {}
  if kind = workload then some (spec, status) else none

/-- The fields apart from the metadata. -/
def body {τ : Type} [Moment τ] (e : Execution τ) : List (String × Json) :=
  [("workload", workToJson e.spec e.status)]

instance : Resource Execution where
  kind := .execution
  metadata := metadata
  setMetadata m e := { e with metadata := m }
  body := body
  ofBody? metadata fields := do
    let (spec, status) ← Json.required fields "workload" workOfJson?
    some { metadata, spec, status }

def ofJson? (j : Json) : Option Execution := Resource.ofJson? ["metadata", "workload"] j

end Execution
end CampaignControl
