import CampaignControl.Metadata

/-!
# Objects

A store holds objects of all kinds alike: as metadata and a body of JSON fields. A type that is
a `Resource` can be put into this form and read back from it. Its body has no field for the
metadata, and a field of that name in the body of an object means nothing.
-/

namespace CampaignControl

/-- Why a store did not do what it was asked for. -/
inductive StoreError where
  /-- There is no object in this place. -/
  | notFound (kind : Kind) (key : Key)
  /-- There is an object in this place already. -/
  | alreadyExists (kind : Kind) (key : Key)
  /-- The object has another version than the one that the change was based on. -/
  | conflict (kind : Kind) (key : Key) (expected actual : Nat)
  /-- The store cannot be used. -/
  | unavailable (reason : String)
  /-- The object has not the contents of its kind. -/
  | codec (kind : Kind) (reason : String)
  deriving DecidableEq, Repr, Inhabited

namespace StoreError

def message : StoreError → String
  | notFound kind key => s!"{kind} {key} not found"
  | alreadyExists kind key => s!"{kind} {key} already exists"
  | conflict kind key expected actual =>
    s!"{kind} {key} version conflict: expected {expected}, found {actual}"
  | unavailable reason => s!"object store unavailable: {reason}"
  | codec kind reason => s!"{kind} codec error: {reason}"

def isNotFound : StoreError → Bool
  | notFound .. => true
  | _ => false

def isAlreadyExists : StoreError → Bool
  | alreadyExists .. => true
  | _ => false

def isConflict : StoreError → Bool
  | conflict .. => true
  | _ => false

end StoreError

/-- An object as a store holds it. -/
structure Object where
  metadata : Metadata
  body : List (String × Json)
  deriving DecidableEq, Repr, Inhabited

/-- A type of objects, all of one kind. -/
class Resource (α : Type) where
  kind : Kind
  metadata : α → Metadata
  setMetadata : Metadata → α → α
  /-- The fields apart from the metadata. -/
  body : α → List (String × Json)
  /-- The object with this metadata and these other fields. -/
  ofBody? : Metadata → List (String × Json) → Option α

namespace Resource

variable {α : Type} [Resource α]

def key (a : α) : Key := (metadata a).key

/-- The place of an object of this type in a store. -/
def slot (a : α) : Slot := { kind := kind α, key := key a }

/-- Changes the metadata. -/
def mapMetadata (f : Metadata → Metadata) (a : α) : α := setMetadata (f (metadata a)) a

def encode (a : α) : Object := { metadata := metadata a, body := body a }

def decode (object : Object) : Except StoreError α :=
  match ofBody? object.metadata object.body with
  | some a => .ok a
  | none => .error (.codec (kind α) "the fields are not those of the kind")

/-- The object as a whole in JSON. -/
def toJson (a : α) : Json :=
  .object (Keyed.insert "metadata" (metadata a).toJson (body a))

/-- Reads an object from JSON. `names` are the names of its fields, the first of which is the
metadata. -/
def ofJson? (names : List String) (j : Json) : Option α := do
  let fields ← j.fields? names
  let metadata ← Json.required fields "metadata" Metadata.ofJson?
  ofBody? metadata fields

end Resource

namespace Object

def key (object : Object) : Key := object.metadata.key

/-- The whole object in JSON. -/
def toJson (object : Object) : Json :=
  .object (Keyed.insert "metadata" object.metadata.toJson object.body)

/-- Reads an object of any kind; its body is not looked into. -/
def ofJson? (j : Json) : Option Object := do
  let fields ← j.toFields?
  let metadata ← Json.required fields "metadata" Metadata.ofJson?
  some { metadata, body := Keyed.erase "metadata" fields }

end Object
end CampaignControl
