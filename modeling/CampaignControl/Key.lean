import CampaignControl.Json.Record

/-!
# Keys of objects

An object is addressed by its kind and its key, which is a name within a namespace. Keys are
ordered by namespace and then by name; slots, which are the places of objects in a store, by
kind and then by key.
-/

namespace CampaignControl

/-- A name within a namespace. -/
structure Key where
  /-- The namespace. -/
  space : String
  name : String
  deriving DecidableEq, Repr, Inhabited

namespace Key

instance : LT Key := ⟨fun a b => a.space < b.space ∨ (a.space = b.space ∧ a.name < b.name)⟩

instance (a b : Key) : Decidable (a < b) :=
  inferInstanceAs (Decidable (a.space < b.space ∨ (a.space = b.space ∧ a.name < b.name)))

/-- The namespace and the name with a slash between. -/
def text (key : Key) : String := key.space ++ "/" ++ key.name

instance : ToString Key := ⟨text⟩

/-- The key that a text denotes; its namespace ends at the first slash. -/
def ofText? (text : String) : Option Key :=
  let space := text.toList.takeWhile (· ≠ '/')
  match text.toList.drop space.length with
  | [] => none
  | _ :: name => some ⟨String.ofList space, String.ofList name⟩

def toJson (key : Key) : Json :=
  .object [("name", .string key.name), ("namespace", .string key.space)]

def ofJson? (j : Json) : Option Key := do
  let fields ← j.fields? ["namespace", "name"]
  let space ← Json.required fields "namespace" Json.toText?
  let name ← Json.required fields "name" Json.toText?
  some { space, name }

end Key

/-- The kinds of objects, in the order of their names. -/
inductive Kind where
  | campaign
  | configDocument
  | execution
  | workUnit
  deriving DecidableEq, Repr, Inhabited

namespace Kind

def name : Kind → String
  | campaign => "Campaign"
  | configDocument => "ConfigDocument"
  | execution => "Execution"
  | workUnit => "WorkUnit"

instance : ToString Kind := ⟨name⟩

/-- The kind with this name. -/
def ofName? (name : String) : Option Kind :=
  [campaign, configDocument, execution, workUnit].find? (·.name == name)

instance : LT Kind := ⟨fun a b => a.name < b.name⟩

instance (a b : Kind) : Decidable (a < b) := inferInstanceAs (Decidable (a.name < b.name))

end Kind

/-- The place of an object in a store. -/
structure Slot where
  kind : Kind
  key : Key
  deriving DecidableEq, Repr, Inhabited

namespace Slot

instance : LT Slot := ⟨fun a b => a.kind < b.kind ∨ (a.kind = b.kind ∧ a.key < b.key)⟩

instance (a b : Slot) : Decidable (a < b) :=
  inferInstanceAs (Decidable (a.kind < b.kind ∨ (a.kind = b.kind ∧ a.key < b.key)))

/-- The kind and the key with a blank between. -/
def text (slot : Slot) : String := slot.kind.name ++ " " ++ slot.key.text

instance : ToString Slot := ⟨text⟩

end Slot
end CampaignControl
