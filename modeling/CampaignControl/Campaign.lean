import CampaignControl.Condition
import CampaignControl.Object
import CampaignControl.Policy.Scheduling

/-!
# Campaigns

A campaign is one sweep over the repositories that are discovered for it. It owns a work unit
for each batch and a configuration document for the workers.
-/

namespace CampaignControl

structure Campaign.Spec where
  /-- Whether live work units are to be deleted and none to be created. -/
  suspended : Bool := false
  policy : SchedulingPolicy := {}
  /-- Settings that are handed on to the executions as they are. -/
  template : Json := .null
  /-- The configuration of the workers, over which their batches are laid. -/
  baseConfig : List (String × Json) := []
  deriving DecidableEq, Repr, Inhabited

structure Campaign.Status (τ : Type := Instant) where
  batchCount : Nat := 0
  activeWorkUnits : Nat := 0
  lastAdmission : Option τ := none
  message : Option String := none
  conditions : List (Condition τ) := []
  deriving DecidableEq, Repr, Inhabited

structure Campaign (τ : Type := Instant) where
  metadata : Metadata τ
  spec : Campaign.Spec := {}
  status : Campaign.Status τ := {}
  deriving DecidableEq, Repr, Inhabited

namespace Campaign

/-- The label that carries the name of the campaign an object belongs to. -/
def label : String := "shoal.dev/campaign"

/-- The type of the condition that tells whether a campaign can be admitted as configured. -/
def configurationValid : String := "ConfigurationValid"

def Spec.toJson (s : Spec) : Json :=
  .object [("baseConfig", .object s.baseConfig), ("execution", s.template),
    ("policy", s.policy.toJson), ("suspended", .bool s.suspended)]

def Spec.ofJson? (j : Json) : Option Spec := do
  let fields ← j.fields? ["suspended", "policy", "execution", "baseConfig"]
  let suspended ← Json.optional fields "suspended" Json.toBool? false
  let policy ← Json.optional fields "policy" SchedulingPolicy.ofJson? {}
  let template ← Json.optional fields "execution" some .null
  let baseConfig ← Json.optional fields "baseConfig" Json.toFields? []
  some { suspended, policy, template, baseConfig }

def Status.toJson {τ : Type} [Moment τ] (s : Status τ) : Json :=
  .object [("activeWorkUnits", Json.ofNat s.activeWorkUnits),
    ("batchCount", Json.ofNat s.batchCount),
    ("conditions", Condition.listToJson s.conditions),
    ("lastAdmissionTime", Json.ofOption Json.ofInstant s.lastAdmission),
    ("message", Json.ofOption Json.ofText s.message)]

def Status.ofJson? (j : Json) : Option Status := do
  let fields ← j.fields? ["batchCount", "activeWorkUnits", "lastAdmissionTime", "message",
    "conditions"]
  let batchCount ← Json.optional fields "batchCount" Json.toNat? 0
  let activeWorkUnits ← Json.optional fields "activeWorkUnits" Json.toNat? 0
  let lastAdmission ←
    Json.optional fields "lastAdmissionTime" (Json.toOption? Json.toInstant?) none
  let message ← Json.optional fields "message" (Json.toOption? Json.toText?) none
  let conditions ← Json.optional fields "conditions" (Json.toList? Condition.ofJson?) []
  some { batchCount, activeWorkUnits, lastAdmission, message, conditions }

/-- The fields apart from the metadata. -/
def body {τ : Type} [Moment τ] (c : Campaign τ) : List (String × Json) :=
  [("spec", c.spec.toJson), ("status", c.status.toJson)]

instance : Resource Campaign where
  kind := .campaign
  metadata := metadata
  setMetadata m c := { c with metadata := m }
  body := body
  ofBody? metadata fields := do
    let spec ← Json.required fields "spec" Spec.ofJson?
    let status ← Json.optional fields "status" Status.ofJson? {}
    some { metadata, spec, status }

def key (c : Campaign) : Key := c.metadata.key

def ofJson? (j : Json) : Option Campaign := Resource.ofJson? ["metadata", "spec", "status"] j

end Campaign
end CampaignControl
