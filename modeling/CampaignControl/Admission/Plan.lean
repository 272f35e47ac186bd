import CampaignControl.Campaign
import CampaignControl.Naming
import CampaignControl.Partition
import CampaignControl.WorkUnit

/-!
# Admission plans

Which batches of a campaign get a work unit now. A batch is covered when there is a work unit
with its index, in whatever phase, or a live one with the same repositories in any order. The
uncovered batches are taken in order, as many as the ceiling leaves room for beside the live work
units. A suspended campaign gets none, and its live work units are to be deleted.
-/

namespace CampaignControl
namespace Admission

/-- The number of live work units. -/
def liveCount (units : List WorkUnit) : Nat := units.countP WorkUnit.isLive

/-- How many work units may be created beside so many live ones. -/
def quota (live ceiling : Nat) : Nat := ceiling - live

/-- Whether two lists have the same length and the same members. -/
def sameRepositories (a b : List String) : Bool :=
  a.length == b.length && a.all b.contains && b.all a.contains

/-- Whether a batch has a work unit. -/
def isCovered (units : List WorkUnit) (index : Nat) (batch : Batch) : Bool :=
  units.any fun u =>
    u.spec.batchIndex == index || (u.isLive && sameRepositories u.spec.repositories batch)

/-- The batches without a work unit, each with its index. The first batch has the given one. -/
def uncovered (units : List WorkUnit) (start : Nat) : List Batch → List (Nat × Batch)
  | [] => []
  | batch :: rest =>
    if isCovered units start batch then uncovered units (start + 1) rest
    else (start, batch) :: uncovered units (start + 1) rest

/-- The batches to create work units for, each with its index. -/
def selected (units : List WorkUnit) (batches : List Batch) (ceiling : Nat) :
    List (Nat × Batch) :=
  (uncovered units 0 batches).take (quota (liveCount units) ceiling)

/-- The work unit for a batch of a campaign. -/
def workUnit (campaign : Campaign) (index : Nat) (repositories : Batch) (now : Instant) :
    WorkUnit where
  metadata :=
    let m : Metadata :=
      { key := { space := campaign.key.space
                 name := Naming.workUnit campaign.key.name index }
        owner := campaign.metadata.asOwner Kind.campaign.name }
    (m.withLabel Campaign.label campaign.key.name).withLabel WorkUnit.batchIndexLabel
      (toString index)
  spec :=
    { campaign := campaign.key.name
      repositories
      batchIndex := index
      priority := .ofInt (min index 0x7fffffffffffffff)
      template := campaign.spec.template
      retentionSeconds := campaign.spec.policy.retentionSeconds
      configDocument := Naming.configDocument campaign.key.name }
  status :=
    { conditions :=
        [{ type := WorkUnit.admitted, status := .holds, reason := "Scheduled"
           message := s!"batch {index} admitted", since := now }] }

/-- What a pass over a campaign is to do. -/
structure Plan where
  /-- The work units to create, in the order of their batches. -/
  create : List WorkUnit := []
  /-- The work units to delete. -/
  drain : List Key := []
  /-- The number of live work units. -/
  running : Nat := 0
  /-- The number of batches without a work unit. -/
  pending : Nat := 0
  deriving DecidableEq, Repr, Inhabited

/-- The plan for a campaign with these work units and batches. -/
def plan (campaign : Campaign) (units : List WorkUnit) (batches : List Batch) (now : Instant) :
    Plan :=
  if campaign.spec.suspended then
    { drain := (units.filter fun u => u.isLive && !u.metadata.isDeleting).map WorkUnit.key
      running := liveCount units }
  else
    { create := (selected units batches campaign.spec.policy.parallelism).map
        fun (index, batch) => workUnit campaign index batch now
      running := liveCount units
      pending := (uncovered units 0 batches).length }

end Admission
end CampaignControl
