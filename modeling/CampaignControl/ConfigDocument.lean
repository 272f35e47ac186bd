import CampaignControl.Campaign
import CampaignControl.Dispatch
import CampaignControl.Naming

/-!
# Configuration documents

The document of a campaign from which each worker takes the base configuration and, at its own
index, its batch.
-/

namespace CampaignControl

structure ConfigDocument (τ : Type := Instant) where
  metadata : Metadata τ
  baseConfig : List (String × Json) := []
  /-- The batch of each worker. -/
  batches : List Json := []
  deriving DecidableEq, Repr, Inhabited

namespace ConfigDocument

/-- The fields apart from the metadata. -/
def body {τ : Type} (d : ConfigDocument τ) : List (String × Json) :=
  [("baseConfig", .object d.baseConfig), ("batches", .array d.batches)]

instance : Resource ConfigDocument where
  kind := .configDocument
  metadata := metadata
  setMetadata m d := { d with metadata := m }
  body := body
  ofBody? metadata fields := do
    let baseConfig ← Json.optional fields "baseConfig" Json.toFields? []
    let batches ← Json.optional fields "batches" (Json.toList? some) []
    some { metadata, baseConfig, batches }

def ofJson? (j : Json) : Option ConfigDocument :=
  Resource.ofJson? ["metadata", "baseConfig", "batches"] j

end ConfigDocument

namespace Admission

/-- The configuration document for a campaign with these batches. -/
def document (campaign : Campaign) (batches : List Batch) : ConfigDocument where
  metadata :=
    let m : Metadata :=
      { key := { space := campaign.key.space, name := Naming.configDocument campaign.key.name }
        owner := campaign.metadata.asOwner Kind.campaign.name }
    m.withLabel Campaign.label campaign.key.name
  baseConfig := campaign.spec.baseConfig
  batches := batches.map Dispatch.document

/-- Gives a configuration document the contents of another one, unless it has them. -/
def refresh (fresh current : ConfigDocument) : ConfigDocument × Option Unit :=
  if (Json.object current.baseConfig).same (.object fresh.baseConfig) ∧
      (Json.array current.batches).same (.array fresh.batches) then (current, none)
  else ({ current with baseConfig := fresh.baseConfig, batches := fresh.batches }, some ())

end Admission
end CampaignControl
