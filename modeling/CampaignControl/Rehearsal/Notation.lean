import CampaignControl.Rehearsal.Changes
import CampaignControl.Rehearsal.Script

/-!
# The notation for scripts

How edits, interferences and rules are written in JSON. The number of identities that have been
given is an argument of all readers, for the aliases in what they read.
-/

namespace CampaignControl

/-- Reads the value of a field, where a missing one is null. -/
def Json.field {α : Type} (read : Json → Option α) (name : String) (j : Json) : Option α :=
  match j with
  | .object fields => read ((Keyed.find? name fields).getD .null)
  | _ => read .null

/-- Reads the value of a field, with a default for null. -/
def Json.fieldOr {α : Type} (read : Json → Option α) (default : α) (name : String) (j : Json) :
    Option α :=
  j.field (fun value => if value = .null then some default else read value) name

/-- The kind of this name. -/
def Kind.ofJson? (j : Json) : Option Kind := j.toText?.bind ofName?

/-- The key with this text. -/
def Key.written? (j : Json) : Option Key := j.toText?.bind ofText?

/-- A pair of a kind and a key. -/
def Slot.ofJson? : Json → Option Slot
  | .array [kind, key] => do some { kind := ← Kind.ofJson? kind, key := ← Key.written? key }
  | _ => none

/-- The value at a path. -/
def Json.valueAt : List String → Json → Option Json
  | [], j => some j
  | name :: path, j => do valueAt path (← j.field some name)

/-- A pair of a path and a value. -/
def Edit.ofJson? (given : Nat) : Json → Option Edit
  | .array [path, value] => do
    let path ← path.toStrings?
    let whole := Json.putAt value path .null
    some { path, value := ← Json.valueAt path (Alias.revealIn given whole) }
  | _ => none

/-- A list of edits; null is the empty one. -/
def Edit.listOfJson? (given : Nat) : Json → Option (List Edit)
  | .null => some []
  | j => j.toList? (Edit.ofJson? given)

/-- An object of any kind, in which identities may be written as aliases. -/
def Object.revealed? (given : Nat) (j : Json) : Option Object :=
  ofJson? (Alias.revealIn given j)

def Interference.ofJson? (given : Nat) (j : Json) : Option Interference := do
  if let some slot ← j.field (Json.toOption? Slot.ofJson?) "delete" then some (.delete slot)
  else if let some kind ← j.field (Json.toOption? Kind.ofJson?) "create" then
    some (.create kind (← j.field (Object.revealed? given) "object"))
  else some (.edit (← j.field Slot.ofJson? "patch") (← j.field (Edit.listOfJson? given) "set"))

/-- The name of a propagation; null is that of the background. -/
def Propagation.ofJson? : Json → Option Propagation
  | .null | .string "background" => some .background
  | .string "foreground" => some .foreground
  | .string "orphan" => some .orphan
  | _ => none

namespace Script

def Method.ofJson? : Json → Option Method
  | .string "get" => some .get
  | .string "list" => some .list
  | .string "create" => some .create
  | .string "update" => some .update
  | .string "delete" => some .delete
  | _ => none

/-- A fault by its name, with what else belongs to it in further fields. -/
def Fault.ofJson? (name : String) (j : Json) : Option Fault :=
  match name with
  | "NotFound" => some .notFound
  | "AlreadyExists" => some .alreadyExists
  | "Conflict" => do
    some (.conflict (← j.fieldOr Json.toNat? 0 "expected") (← j.fieldOr Json.toNat? 1 "actual"))
  | "Unavailable" => do some (.unavailable (← j.fieldOr Json.toText? "scripted" "message"))
  | "Codec" => do some (.codec (← j.fieldOr Json.toText? "scripted" "message"))
  | _ => none

def Effect.ofJson? (given : Nat) (j : Json) : Option Effect := do
  match ← j.field (Json.toOption? Json.toText?) "error" with
  | some name => some (.fail (← Fault.ofJson? name j))
  | none => some (.interfere (← Interference.ofJson? given j))

def Rule.ofJson? (given : Nat) (j : Json) : Option Rule := do
  some { method := ← j.field Method.ofJson? "method"
         kind := ← j.field Kind.ofJson? "kind"
         skip := ← j.fieldOr Json.toNat? 0 "skip"
         times := ← j.fieldOr Json.toNat? 1 "times"
         effect := ← j.field (Effect.ofJson? given) "then" }

end Script
end CampaignControl
