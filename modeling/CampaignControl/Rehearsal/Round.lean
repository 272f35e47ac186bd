import CampaignControl.Lifecycle.Pass
import CampaignControl.Rehearsal.Stage

/-!
# Rounds

A round makes one pass over each work unit of a campaign, in the order of the batches.
-/

namespace CampaignControl
namespace Stage

/-- The work units with the label of a campaign, by batch. -/
def workUnitsOf (campaign : Key) (stage : Stage) : List Key :=
  let filter : Filter :=
    { space := some campaign.space, labels := [(Campaign.label, campaign.name)] }
  let units : List WorkUnit := (stage.store.list .workUnit filter).filterMap fun object =>
    (Resource.decode object).toOption
  (units.mergeSort fun a b => a.spec.batchIndex ≤ b.spec.batchIndex).map WorkUnit.key

/-- Makes a pass over each of these work units. -/
def passOver (settings : Settings) (now : Instant) :
    List Key → Stage → List (Key × Except Error Action) × Stage
  | [], stage => ([], stage)
  | key :: rest, stage =>
    let (result, stage) := stage.run (Lifecycle.reconcile settings key now)
    let (results, stage) := passOver settings now rest stage
    ((key, result) :: results, stage)

/-- Makes a round for a campaign. -/
def round (settings : Settings) (campaign : Key) (now : Instant) (stage : Stage) :
    List (Key × Except Error Action) × Stage :=
  passOver settings now (stage.workUnitsOf campaign) stage

end Stage
end CampaignControl
