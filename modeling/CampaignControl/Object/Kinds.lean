import CampaignControl.Campaign
import CampaignControl.ConfigDocument
import CampaignControl.Execution
import CampaignControl.WorkUnit

/-!
# Objects of a kind

Objects read as what their kind says they are, where the kind is not known beforehand, and edits:
changes to single fields of an object, each named by its path from the whole object in JSON, the
metadata included.
-/

namespace CampaignControl

namespace Kind

/-- Does the same for the type of objects of a kind as for every other. -/
def withResource {β : Type} (kind : Kind) (f : (α : Type) → [Resource α] → β) : β :=
  match kind with
  | campaign => f Campaign
  | workUnit => f WorkUnit
  | execution => f Execution
  | configDocument => f ConfigDocument

end Kind

/-- The object after it has been read as one of its kind: without fields that the kind has not,
and with all that it has. -/
def Object.typed (kind : Kind) (object : Object) : Except StoreError Object :=
  kind.withResource fun α _ =>
    (Resource.decode object : Except StoreError α).map Resource.encode

/-! ## Edits -/

/-- A value and the path of the field that it is put into. -/
structure Edit where
  path : List String
  value : Json
  deriving DecidableEq, Repr, Inhabited

namespace Json

/-- Puts a value at a path. The steps of a path are names of fields, or positions in arrays. An
object is made where there is nothing yet, and nothing is changed in a value that has no
fields. -/
def putAt (value : Json) : List String → Json → Json
  | [], _ => value
  | name :: path, .object fields =>
    .object (Keyed.insert name (putAt value path ((Keyed.find? name fields).getD .null)) fields)
  | name :: path, .null => .object [(name, putAt value path .null)]
  | name :: path, .array items =>
    match name.toNat? with
    | some i => .array (items.modify i (putAt value path))
    | none => .array items
  | _ :: _, j => j

end Json

/-- The object after edits, if it is one. -/
def Object.edited? (edits : List Edit) (object : Object) : Option Object :=
  ofJson? (edits.foldl (fun j e => Json.putAt e.value e.path j) object.toJson)

/-- A resource after edits; it stays as it is when it would not be one of its kind any more. -/
def Resource.edited {α : Type} [Resource α] (edits : List Edit) (a : α) : α :=
  match (encode a).edited? edits with
  | none => a
  | some object =>
    match decode object with
    | .ok b => b
    | .error _ => a

end CampaignControl
