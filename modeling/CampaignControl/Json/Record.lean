import CampaignControl.Json.Basic
import CampaignControl.Time.Rfc3339
import CampaignControl.Uid

/-!
# Typed values in JSON

Readers for the values that records are made of. A record is written as an object with a field
for each of its parts; an array of at most as many items stands for the object that has the
items under the names of the record, in order (`Json.fields?`). Fields that no part asks for are
ignored.

A reader has no answer for a value of another shape. A number is read as an integer only when it
is whole and in the range of the type.
-/

namespace CampaignControl
namespace Json

def toBool? : Json → Option Bool
  | .bool b => some b
  | _ => none

def toText? : Json → Option String
  | .string s => some s
  | _ => none

def toNat? : Json → Option Nat
  | .number (.whole (.ofNat n)) => some n
  | _ => none

def toUInt32? : Json → Option UInt32
  | .number (.whole (.ofNat n)) => if n < 0x100000000 then some (.ofNat n) else none
  | _ => none

def toInt64? : Json → Option Int64
  | .number (.whole n) =>
    if -0x8000000000000000 ≤ n ∧ n < 0x8000000000000000 then some (.ofInt n) else none
  | _ => none

/-- The value, unless it is `null`. -/
def toOption? {α : Type} (read : Json → Option α) : Json → Option (Option α)
  | .null => some none
  | j => (read j).map some

def toList? {α : Type} (read : Json → Option α) : Json → Option (List α)
  | .array items => items.mapM read
  | _ => none

def toStrings? : Json → Option (List String) := toList? toText?

/-- The fields of an object. -/
def toFields? : Json → Option (List (String × Json))
  | .object fields => some fields
  | _ => none

/-- The fields of an object all of whose values are strings. -/
def toTexts? : Json → Option (List (String × String))
  | .object fields => fields.mapM fun (k, j) => j.toText?.map (k, ·)
  | _ => none

def toInstant? (j : Json) : Option Instant := j.toText?.bind Instant.read?

def toUid? (j : Json) : Option Uid := j.toText?.bind Uid.read?

/-- The name of a case without contents: written alone, or as the only field of an object, with
`null` as its value. -/
def toCase? : Json → Option String
  | .string name => some name
  | .object [(name, .null)] => some name
  | _ => none

/-- The name of a case without contents as it may stand inside a tagged record, where an empty
object is as good as `null`. -/
def toTaggedCase? : Json → Option String
  | .object [(name, .object [])] => some name
  | j => j.toCase?

/-- The fields of a record whose parts have these names: those of an object, or the items of an
array under the names in order. -/
def fields? (names : List String) : Json → Option (List (String × Json))
  | .object fields => some fields
  | .array items => if items.length ≤ names.length then some (names.zip items) else none
  | _ => none

/-- The value of a field that has to be there. -/
def required {α : Type} (fields : List (String × Json)) (name : String)
    (read : Json → Option α) : Option α :=
  (Keyed.find? name fields).bind read

/-- The value of a field, or a default where the field is missing. -/
def optional {α : Type} (fields : List (String × Json)) (name : String)
    (read : Json → Option α) (default : α) : Option α :=
  match Keyed.find? name fields with
  | none => some default
  | some j => read j

def ofText (s : String) : Json := .string s

def ofInt64 (n : Int64) : Json := ofInt n.toInt

def ofUInt32 (n : UInt32) : Json := ofNat n.toNat

def ofInstant {τ : Type} [Moment τ] (t : τ) : Json := .string (Moment.timestamp t).text

def ofUid (uid : Uid) : Json := .string uid.text

/-- The fields of an object whose values are strings. -/
def ofTexts (entries : List (String × String)) : Json :=
  .object (entries.map fun (k, s) => (k, .string s))

end Json

/-- The whole seconds of a span and the nanoseconds beyond them. -/
def Span.toJson (s : Span) : Json :=
  .object [("nanos", Json.ofInt s.subsecond), ("secs", Json.ofInt s.seconds)]

end CampaignControl
