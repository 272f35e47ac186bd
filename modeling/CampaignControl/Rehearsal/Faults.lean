import CampaignControl.Store.Request

/-!
# Faults

Failures that are injected between a caller and a store: creations of a kind that fail after a
number of successes, a number of version conflicts, and the outage of the store as a whole.
-/

namespace CampaignControl

structure Faults where
  /-- How many creations of a kind still succeed. -/
  creations : List (Kind × Nat) := []
  /-- How many changes of a kind are still refused. -/
  conflicts : List (Kind × Nat) := []
  outage : Bool := false
  /-- The number of creations that have been asked for. -/
  createCalls : Nat := 0
  /-- The number of changes that have been asked for. -/
  updateCalls : Nat := 0
  deriving DecidableEq, Repr, Inhabited

namespace Faults

def failCreationsAfter (f : Faults) (kind : Kind) (successes : Nat) : Faults :=
  { f with creations := Keyed.insert kind successes f.creations }

def injectConflicts (f : Faults) (kind : Kind) (count : Nat) : Faults :=
  { f with conflicts := Keyed.insert kind count f.conflicts }

/-- Removes all faults. -/
def heal (f : Faults) : Faults := { f with creations := [], conflicts := [], outage := false }

/-- What an outage makes of every request. -/
def outageError : StoreError := .unavailable "injected outage"

/-- The version that an injected conflict reports as that of the stored object. The last version of
64 bits is followed by 0; where additions are checked for overflow there is no conflict to report
for it, and the request panics. -/
def following (version : Nat) : Nat := (version + 1) % 0x10000000000000000

/-- The failure of a request, if there is to be one, and the faults after it. -/
def intercept (f : Faults) : StoreRequest → Option StoreError × Faults
  | .create kind _ =>
    let f := { f with createCalls := f.createCalls + 1 }
    if f.outage then (some outageError, f)
    else
      match Keyed.find? kind f.creations with
      | none => (none, f)
      | some 0 => (some (.unavailable s!"injected {kind} create failure"), f)
      | some (n + 1) => (none, { f with creations := Keyed.insert kind n f.creations })
  | .update kind object =>
    let f := { f with updateCalls := f.updateCalls + 1 }
    if f.outage then (some outageError, f)
    else
      match Keyed.find? kind f.conflicts with
      | some (n + 1) =>
        let version := object.metadata.version
        (some (.conflict kind object.key version (following version)),
          { f with conflicts := Keyed.insert kind n f.conflicts })
      | _ => (none, f)
  | .get .. | .list .. | .delete .. => (if f.outage then some outageError else none, f)

/-- What a store with faults in front of it does on a request. -/
def serve (now : Instant) (r : StoreRequest) (state : Faults × Store) :
    r.Reply × (Faults × Store) :=
  match state.1.intercept r with
  | (some e, faults) => (.error e, (faults, state.2))
  | (none, faults) =>
    let (reply, store) := Store.serve now r state.2
    (reply, (faults, store))

end Faults
end CampaignControl
