import CampaignControl.Json.Record

/-!
# Conditions

An object reports what is known about it as a list of conditions, at most one of each type.
`Condition.set` puts a condition in place of the one of its type and keeps the time of the last
transition while the status stays the same.
-/

namespace CampaignControl

inductive Condition.Status where
  | holds
  | fails
  | unknown
  deriving DecidableEq, Repr, Inhabited

namespace Condition.Status

def name : Status → String
  | holds => "True"
  | fails => "False"
  | unknown => "Unknown"

def ofName? (name : String) : Option Status :=
  [holds, fails, unknown].find? (·.name == name)

end Condition.Status

structure Condition (τ : Type := Instant) where
  type : String
  status : Condition.Status
  reason : String := ""
  message : String := ""
  /-- When the status changed last. -/
  since : τ
  deriving DecidableEq, Repr, Inhabited

namespace Condition

def holds (c : Condition) : Bool := c.status = .holds

/-- The first condition of this type. -/
def find? (type : String) (conditions : List Condition) : Option Condition :=
  conditions.find? (·.type == type)

/-- What becomes of a condition when another one of its type is set: nothing, if they say the
same, and otherwise the new one, since the old time unless the status differs. -/
def revise (old new : Condition) : Condition :=
  if old.status = new.status then
    if old.reason = new.reason ∧ old.message = new.message then old
    else { new with since := old.since }
  else new

/-- Whether setting a condition tells something new: there is none of its type, or the first one
of its type says something else. -/
def isNews (new : Condition) (conditions : List Condition) : Bool :=
  match find? new.type conditions with
  | none => true
  | some old => old.status != new.status || old.reason != new.reason || old.message != new.message

/-- Revises the first condition of the type of the given one, or adds the given one at the end. -/
def set (new : Condition) : List Condition → List Condition
  | [] => [new]
  | c :: rest => if c.type = new.type then revise c new :: rest else c :: set new rest

def toJson {τ : Type} [Moment τ] (c : Condition τ) : Json :=
  .object [("lastTransitionTime", Json.ofInstant c.since), ("message", .string c.message),
    ("reason", .string c.reason), ("status", .string c.status.name), ("type", .string c.type)]

/-- Reads a condition, given how the name of its status is read. -/
def ofJsonBy? (toCase? : Json → Option String) (j : Json) : Option Condition := do
  let fields ← j.fields? ["type", "status", "reason", "message", "lastTransitionTime"]
  let type ← Json.required fields "type" Json.toText?
  let status ← Json.required fields "status" fun j => (toCase? j).bind Status.ofName?
  let reason ← Json.optional fields "reason" Json.toText? ""
  let message ← Json.optional fields "message" Json.toText? ""
  let since ← Json.required fields "lastTransitionTime" Json.toInstant?
  some { type, status, reason, message, since }

def ofJson? (j : Json) : Option Condition := ofJsonBy? Json.toCase? j

/-- A list of conditions as an array. -/
def listToJson {τ : Type} [Moment τ] (conditions : List (Condition τ)) : Json :=
  .array (conditions.map toJson)

end Condition
end CampaignControl
