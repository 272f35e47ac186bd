import CampaignControl.Event

/-!
# Targets

What a pass is made over: a campaign or a work unit. All campaigns come before all work units.
Events call for passes over targets (`Event.targets`).
-/

namespace CampaignControl

inductive Target where
  | campaign (key : Key)
  | workUnit (key : Key)
  deriving DecidableEq, Repr, Inhabited

namespace Target

def kind : Target → Kind
  | campaign _ => .campaign
  | workUnit _ => .workUnit

def key : Target → Key
  | campaign key | workUnit key => key

def slot (t : Target) : Slot := { kind := t.kind, key := t.key }

/-- The kind and the key with a blank between. -/
def text (t : Target) : String := t.slot.text

instance : LT Target := ⟨fun a b => a.slot < b.slot⟩

instance (a b : Target) : Decidable (a < b) := inferInstanceAs (Decidable (a.slot < b.slot))

/-- The targets in order. -/
def sort (targets : List Target) : List Target := targets.mergeSort fun a b => !decide (b < a)

end Target

/-- The targets that an event calls for a pass over: a new work unit, and a campaign that has
got room for another one. -/
def Event.targets (e : Event) : List Target :=
  let unit := match e.payload with
    | .admitted .. | .adopted _ => [.workUnit e.entity]
    | _ => []
  unit ++ if e.payload.freesCapacity then [.campaign e.campaign] else []

end CampaignControl
