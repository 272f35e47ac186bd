import CampaignControl.Metrics
import CampaignControl.Program
import CampaignControl.Rehearsal.Faults
import CampaignControl.Rehearsal.Script

/-!
# The stage

The surroundings of a pass as a value, to try passes out: a store with a script and faults in
front of it, a table of repositories, and the events and measurements so far. `Stage.run` runs a
program to its end; `Stage.backstage` runs one on the store itself.
-/

namespace CampaignControl

structure Stage where
  store : Store := {}
  faults : Faults := {}
  rules : List Script.Rule := []
  /-- The repositories of each campaign. -/
  repositories : List (Key × List String) := []
  /-- Why discovery fails, if it does. -/
  discoveryFault : Option String := none
  /-- Whether events are lost. -/
  mute : Bool := false
  events : List Event := []
  metrics : Metrics := {}
  /-- The number of identities that have been given to passes. -/
  correlations : Nat := 0
  /-- The time that the store writes into objects. -/
  clock : Instant := .epoch
  deriving Inhabited

namespace Stage

/-- What the store itself does on a request. -/
def serveDirect (r : StoreRequest) (stage : Stage) : r.Reply × Stage :=
  let (reply, store) := Store.serve stage.clock r stage.store
  (reply, { stage with store })

/-- What the store with the faults in front of it does on a request. -/
def serveFaulty (r : StoreRequest) (stage : Stage) : r.Reply × Stage :=
  let (reply, faults, store) := Faults.serve stage.clock r (stage.faults, stage.store)
  (reply, { stage with faults, store })

/-- What happens on a request to the store, by the script and then by the faults. -/
def serve (r : StoreRequest) (stage : Stage) : r.Reply × Stage :=
  let (effect, rules) := Script.trigger (Script.methodOf r) r.kind stage.rules
  let stage := { stage with rules }
  match effect with
  | some (.fail fault) => (.error (fault.error r.kind r.key), stage)
  | some (.interfere change) =>
    serveFaulty r { stage with store := change.apply stage.clock stage.store }
  | none => serveFaulty r stage

/-- Where nobody interferes, only the faults stand in front of the store. -/
theorem serve_of_rules {stage : Stage} (h : stage.rules = []) (r : StoreRequest) :
    stage.serve r = stage.serveFaulty r := by
  obtain ⟨store, faults, rules, repositories, discoveryFault, mute, events, metrics, correlations,
    clock⟩ := stage
  cases h
  rfl

/-- The repositories of a campaign, if they can be discovered. -/
def discover (campaign : Campaign) (stage : Stage) : Except String (List String) :=
  match stage.discoveryFault with
  | some reason => .error reason
  | none => .ok ((Keyed.find? campaign.key stage.repositories).getD [])

/-- What the surroundings do on a request, where `serve` says what the store does. -/
def answer (serve : (r : StoreRequest) → Stage → r.Reply × Stage) :
    (r : Request) → Stage → r.Reply × Stage
  | .store r, stage => serve r stage
  | .discover campaign, stage => (stage.discover campaign, stage)
  | .correlate, stage =>
    (.issued (stage.correlations + 1), { stage with correlations := stage.correlations + 1 })
  | .publish event, stage =>
    ((), if stage.mute then stage else { stage with events := stage.events ++ [event] })
  | .measure m, stage => ((), { stage with metrics := stage.metrics.record m })

/-- Runs a program. -/
def run {α : Type} (p : Program α) (stage : Stage) : α × Stage := p.run (answer serve) stage

/-- Runs a program on the store itself. -/
def backstage {α : Type} (p : Program α) (stage : Stage) : α × Stage :=
  p.run (answer serveDirect) stage

/-- The number of events of each kind. -/
def eventCounts (stage : Stage) : List (String × Nat) :=
  stage.events.foldl (fun counts event =>
    let label := event.payload.label
    Keyed.insert label ((Keyed.find? label counts).getD 0 + 1) counts) []

end Stage
end CampaignControl
