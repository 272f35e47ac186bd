import CampaignControl.Execution
import CampaignControl.Pass
import CampaignControl.Rehearsal.Stage

/-!
# The substrate

What runs the executions, reduced to what it reports: an execution has begun, has succeeded, or
has given up. It relies on the executions that it knows of, and breaks down when one of them is
not there.
-/

namespace CampaignControl
namespace Text

/-- How a character is written between quotes. -/
def escaped (c : Char) : List Char :=
  if c = '"' ∨ c = '\\' then ['\\', c]
  else if c = '\t' then ['\\', 't']
  else if c = '\n' then ['\\', 'n']
  else if c = '\r' then ['\\', 'r']
  else if c = '\x00' then ['\\', '0']
  else if c < ' ' ∨ '\x7f' ≤ c ∧ c < '\xa0' then
    ['\\', 'u', '\x7b'] ++ Nat.toDigits 16 c.toNat ++ ['\x7d']
  else [c]

/-- A text in quotes, for messages. -/
def quoted (text : String) : String :=
  String.ofList ('"' :: text.toList.flatMap escaped ++ ['"'])

end Text

namespace Substrate

/-- How often a report is tried. -/
def attempts : Nat := 5

/-- A worker is running. -/
def begun (time : Instant) (s : Execution.Status) : Execution.Status :=
  { s with active := 1, startTime := some (s.startTime.getD time) }

/-- The work has been done. -/
def succeeded (time : Instant) (s : Execution.Status) : Execution.Status :=
  let done : Condition :=
    { type := Execution.complete, status := .holds, reason := "Completed", since := time }
  { s with
    active := 0
    succeeded := 1
    startTime := some (s.startTime.getD time)
    completionTime := some time
    conditions := done.set s.conditions }

/-- The work has been given up. -/
def failed (message : String) (time : Instant) (s : Execution.Status) : Execution.Status :=
  let given : Condition :=
    { type := Execution.failure, status := .holds, reason := "BackoffLimitExceeded", message
      since := time }
  { s with
    active := 0
    failed := 1
    startTime := some (s.startTime.getD time)
    conditions := given.set s.conditions }

/-- Reports on an execution, if there is one. -/
def report? (key : Key) (change : Execution.Status → Execution.Status) :
    Pass (Option Execution) := do
  let result ← Pass.modify key attempts fun (e : Execution) =>
    ({ e with status := change e.status }, some ())
  return result.map Prod.fst

/-- Why the substrate breaks down. -/
inductive Breakdown where
  /-- There is no execution to report on. -/
  | executionMissing (key : Key)
  | reportFailed (cause : Error)
  /-- There is no execution to delete. -/
  | nothingToDelete (key : Key)
  deriving DecidableEq, Repr, Inhabited

def Breakdown.message : Breakdown → String
  | executionMissing key => s!"execution {key} not found"
  | reportFailed cause => "execution status write failed: " ++ cause.message
  | nothingToDelete key =>
    "execution delete failed: NotFound \x7b kind: \"Execution\", key: ObjectKey \x7b namespace: " ++
      Text.quoted key.space ++ ", name: " ++ Text.quoted key.name ++ " \x7d \x7d"

/-- Reports on an execution, directly in the store. -/
def report (key : Key) (change : Execution.Status → Execution.Status) (stage : Stage) :
    Except Breakdown Execution × Stage :=
  let (result, stage) := stage.backstage (report? key change).run
  match result with
  | .ok (some e) => (.ok e, stage)
  | .ok none => (.error (.executionMissing key), stage)
  | .error cause => (.error (.reportFailed cause), stage)

/-- Deletes an execution, directly in the store. -/
def delete (key : Key) (stage : Stage) : Except Breakdown Unit × Stage :=
  let (result, stage) := stage.backstage (Pass.delete .execution key)
  match result with
  | .ok () => (.ok (), stage)
  | .error _ => (.error (.nothingToDelete key), stage)

end Substrate
end CampaignControl
