import CampaignControl.Json.Reader
import CampaignControl.Object
import CampaignControl.Policy.Scheduling

/-!
# Errors

What can go wrong in a pass over a campaign or a work unit, or in the dispatch of a
configuration. An error is fatal when the same input would bring it about again; the others are
worth another try.
-/

namespace CampaignControl

/-- What is wrong with a configuration document. -/
inductive DocumentFault where
  | baseNotObject
  | batchNotObject (index : Nat)
  | batchesMissing
  | notBatchList
  | other (text : String)
  deriving DecidableEq, Repr, Inhabited

def DocumentFault.message : DocumentFault → String
  | baseNotObject => "base configuration must be a JSON object"
  | batchNotObject index => s!"batch {index} must be a JSON object"
  | batchesMissing => "expected a `batches` array"
  | notBatchList => "batch list must be an array or an object with `batches`"
  | other text => text

inductive Error where
  /-- A strategy that needs a positive number has another one. -/
  | invalidBatchSize (strategy : Strategy) (size : Int64)
  /-- There is no batch at the index of the worker. -/
  | indexOutOfBounds (index length : Nat)
  | invalidDocument (fault : DocumentFault)
  /-- A document is not JSON. -/
  | unreadable (fault : Json.Fault)
  | store (cause : StoreError)
  /-- Every attempt to change an object met a newer version. -/
  | retriesExhausted (key : Key) (attempts : Nat)
  /-- The repositories could not be discovered. -/
  | discovery (reason : String)
  deriving DecidableEq, Repr, Inhabited

namespace Error

def message : Error → String
  | invalidBatchSize strategy size => s!"invalid batch size {size} for strategy {strategy}"
  | indexOutOfBounds index length => s!"worker index {index} out of bounds for {length} batches"
  | invalidDocument fault => "invalid configuration document: " ++ fault.message
  | unreadable .truncated => "serialization error: the document ends too early"
  | unreadable .malformed => "serialization error: the document is malformed"
  | store cause => "store error: " ++ cause.message
  | retriesExhausted key attempts => s!"gave up on {key} after {attempts} conflicting updates"
  | discovery reason => s!"repository discovery failed: {reason}"

def isFatal : Error → Bool
  | invalidBatchSize .. | indexOutOfBounds .. | invalidDocument _ | unreadable _ => true
  | store (.codec ..) => true
  | store _ | retriesExhausted .. | discovery _ => false

/-- What an error is called in measurements. -/
def severity (e : Error) : String := if e.isFatal then "fatal" else "retryable"

end Error
end CampaignControl
