import CampaignControl.Pass
import CampaignControl.Rehearsal.Stage

/-!
# Races

A program that works on an object while others change it. The changes of the others are made
each time between the reading of the object and what the program does next.
-/

namespace CampaignControl
namespace Stage

/-- Runs a program while others interfere: after the `k`-th time that it has read an object
which passes the test, the `k`-th of the changes is made. Answers also how often that was. -/
def race {α : Type} (test : Object → Bool) :
    Program α → List (Option Interference) → Stage → (α × Nat) × Stage
  | .done value, _, stage => ((value, 0), stage)
  | .ask (.store (.get kind key)) next, changes, stage =>
    match serve (.get kind key) stage with
    | (.ok object, stage) =>
      if test object then
        let stage := match changes.head? with
          | some (some change) => { stage with store := change.apply stage.clock stage.store }
          | _ => stage
        let ((value, n), stage) := race test (next (.ok object)) changes.tail stage
        ((value, n + 1), stage)
      else race test (next (.ok object)) changes stage
    | (.error e, stage) => race test (next (.error e)) changes stage
  | .ask r next, changes, stage =>
    let (reply, stage) := answer serve r stage
    race test (next reply) changes stage

/-- Edits the object at a key, in the given number of attempts, while others interfere. Unless
`changed` holds, the edit counts as none. Answers also how often the object has been read. -/
def raceEdits (α : Type) [Resource α] (key : Key) (attempts : Nat) (edits : List Edit)
    (changed : Bool) (changes : List (Option Interference)) (stage : Stage) :
    (Except Error (Option α) × Nat) × Stage :=
  let edit (a : α) : α × Option Unit :=
    (Resource.edited edits a, if changed then some () else none)
  let test (object : Object) : Bool := (Resource.decode object : Except StoreError α).toBool
  let ((result, reads), stage) := stage.race test (Pass.modify key attempts edit).run changes
  ((result.map fun outcome => outcome.map Prod.fst, reads), stage)

end Stage
end CampaignControl
