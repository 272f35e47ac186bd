import CampaignControl.Error
import CampaignControl.Json.Writer
import CampaignControl.Partition

/-!
# Dispatch

A worker takes the batch at its index and lays it over the base configuration. Only the fields
of the two objects themselves are merged: what is inside them is replaced as a whole.
-/

namespace CampaignControl
namespace Dispatch

/-- The name of the field for the repositories of a batch. -/
def repositoriesField : String := "repositories"

/-- The variable that tells an execution its worker index. -/
def indexVariable : String := "SHOAL_WORKER_INDEX"

/-- The variable that tells an execution the name of its configuration document. -/
def documentVariable : String := "SHOAL_CONFIG_DOCUMENT"

/-- What a worker is given. -/
structure Output where
  merged : Json
  batch : Json
  deriving DecidableEq, Repr, Inhabited

/-- Lays the batch at the index over the base configuration. -/
def merge (base : Json) (batches : List Json) (index : Nat) : Except Error Output :=
  match batches[index]? with
  | none => .error (.indexOutOfBounds index batches.length)
  | some batch =>
    match base, batch with
    | .object fields, .object layer => .ok { merged := .object (Json.overlay fields layer), batch }
    | .object _, _ => .error (.invalidDocument (.batchNotObject index))
    | _, _ => .error (.invalidDocument .baseNotObject)

/-- The batches of a document, which is their array or has it as its field `batches`. -/
def batchesOf : Json → Except Error (List Json)
  | .array batches => .ok batches
  | .object fields =>
    match Keyed.find? "batches" fields with
    | some (.array batches) => .ok batches
    | _ => .error (.invalidDocument .batchesMissing)
  | _ => .error (.invalidDocument .notBatchList)

/-- Reads a document. -/
def read (text : String) : Except Error Json :=
  match Json.read text with
  | .ok j => .ok j
  | .error fault => .error (.unreadable fault)

/-- Reads both documents and merges the batch at the index. -/
def mergeTexts (base batches : String) (index : Nat) : Except Error Output := do
  let base ← read base
  let batches ← batchesOf (← read batches)
  merge base batches index

/-- The document for one batch. -/
def document (batch : Batch) : Json := .object [(repositoriesField, Json.ofStrings batch)]

/-- The text of a document, which ends in a line feed. -/
def render (j : Json) : String := j.pretty ++ "\n"

end Dispatch
end CampaignControl
