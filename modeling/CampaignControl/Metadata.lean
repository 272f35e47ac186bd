import CampaignControl.Key

/-!
# Metadata

What every stored object carries beside its contents: its key, the identity and the version that
the store gave it, its labels, its owner, and the finalizers that hold back its removal after
deletion has been requested.
-/

namespace CampaignControl

/-- The object that another one belongs to. -/
structure Owner where
  kind : String
  name : String
  uid : Uid
  deriving DecidableEq, Repr, Inhabited

namespace Owner

def toJson (owner : Owner) : Json :=
  .object [("kind", .string owner.kind), ("name", .string owner.name),
    ("uid", Json.ofUid owner.uid)]

def ofJson? (j : Json) : Option Owner := do
  let fields ← j.fields? ["kind", "name", "uid"]
  let kind ← Json.required fields "kind" Json.toText?
  let name ← Json.required fields "name" Json.toText?
  let uid ← Json.required fields "uid" Json.toUid?
  some { kind, name, uid }

end Owner

structure Metadata (τ : Type := Instant) where
  key : Key
  /-- Given by the store that holds the object. -/
  uid : Option Uid := none
  /-- Changed by the store with every write. -/
  version : Nat := 0
  labels : List (String × String) := []
  owner : Option Owner := none
  finalizers : List String := []
  createdAt : Option τ := none
  /-- When deletion was requested while there were finalizers. -/
  deletedAt : Option τ := none
  deriving DecidableEq, Repr, Inhabited

namespace Metadata

/-- The metadata with one more label, or with another value for it. -/
def withLabel (m : Metadata) (name value : String) : Metadata :=
  { m with labels := Keyed.insert name value m.labels }

/-- Whether deletion has been requested. -/
def isDeleting (m : Metadata) : Bool := m.deletedAt.isSome

def hasFinalizer (m : Metadata) (finalizer : String) : Bool := m.finalizers.contains finalizer

/-- Adds a finalizer behind the others, unless it is there already. -/
def addFinalizer (m : Metadata) (finalizer : String) : Metadata :=
  if m.hasFinalizer finalizer then m else { m with finalizers := m.finalizers ++ [finalizer] }

/-- Removes a finalizer wherever it occurs. -/
def removeFinalizer (m : Metadata) (finalizer : String) : Metadata :=
  { m with finalizers := m.finalizers.filter (· != finalizer) }

/-- The owner that this object is to others, once it has an identity. -/
def asOwner (m : Metadata) (kind : String) : Option Owner :=
  m.uid.map fun uid => { kind, name := m.key.name, uid }

def toJson {τ : Type} [Moment τ] (m : Metadata τ) : Json :=
  .object <|
    [("creationTimestamp", Json.ofOption Json.ofInstant m.createdAt),
      ("deletionTimestamp", Json.ofOption Json.ofInstant m.deletedAt)] ++
    (if m.finalizers.isEmpty then [] else [("finalizers", Json.ofStrings m.finalizers)]) ++
    (if m.labels.isEmpty then [] else [("labels", Json.ofTexts m.labels)]) ++
    [("name", .string m.key.name), ("namespace", .string m.key.space)] ++
    (match m.owner with | none => [] | some owner => [("owner", owner.toJson)]) ++
    [("resourceVersion", Json.ofNat m.version), ("uid", Json.ofOption Json.ofUid m.uid)]

def ofJson? (j : Json) : Option Metadata := do
  let fields ← j.fields? ["name", "namespace", "uid", "resourceVersion", "labels", "owner",
    "finalizers", "creationTimestamp", "deletionTimestamp"]
  let name ← Json.required fields "name" Json.toText?
  let space ← Json.required fields "namespace" Json.toText?
  let uid ← Json.optional fields "uid" (Json.toOption? Json.toUid?) none
  let version ← Json.optional fields "resourceVersion" Json.toNat? 0
  let labels ← Json.optional fields "labels" Json.toTexts? []
  let owner ← Json.optional fields "owner" (Json.toOption? Owner.ofJson?) none
  let finalizers ← Json.optional fields "finalizers" Json.toStrings? []
  let createdAt ← Json.optional fields "creationTimestamp" (Json.toOption? Json.toInstant?) none
  let deletedAt ← Json.optional fields "deletionTimestamp" (Json.toOption? Json.toInstant?) none
  some { key := { space, name }, uid, version, labels, owner, finalizers, createdAt, deletedAt }

end Metadata
end CampaignControl
