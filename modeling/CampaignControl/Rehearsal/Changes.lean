import CampaignControl.Store

/-!
# Changes of a store

What a store holds that it did not hold before and the other way round, and how that is written in
rehearsals. There the identities that a store has given are written by their numbers, `uid-1` for
the first one, and times are only told apart from missing ones, so that what is written does not
depend on where and when the rehearsal takes place. An alias with a number that has not been
given yet stands for the identity that is all zeros.
-/

namespace CampaignControl
namespace Store

/-- The objects that are new or have changed. -/
def changedSince (s before : Store) : List (Slot × Object) :=
  s.objects.filter fun (slot, object) => decide (before.find? slot ≠ some object)

/-- The slots of the objects that are gone. -/
def removedSince (s before : Store) : List Slot :=
  (before.objects.filter fun (slot, _) => (s.find? slot).isNone).map Prod.fst

end Store

namespace Alias

/-- Changes the fields of the metadata that hold identities, and those that hold the times of
creation and deletion. -/
def mapMetadata (onUid onTime : Json → Json) (object : Json) : Json :=
  inField "metadata" (fun m =>
    inField "creationTimestamp" onTime (inField "deletionTimestamp" onTime
      (inField "owner" (inField "uid" onUid) (inField "uid" onUid m)))) object
where
  inField (name : String) (f : Json → Json) : Json → Json
    | .object fields => .object (Keyed.adjust name f fields)
    | j => j

/-- The alias of an identity, among so many that have been given. -/
def hide (given : Nat) (j : Json) : Json :=
  match j.toUid? with
  | some uid =>
    let n := uid.value - (Uid.issued 0).value
    if Uid.issued n = uid ∧ 0 < n ∧ n ≤ given then .string s!"uid-{n}" else j
  | none => j

/-- The identity that a text denotes or is the alias of. -/
def read? (given : Nat) (text : String) : Option Uid :=
  match text.toList with
  | 'u' :: 'i' :: 'd' :: '-' :: digits =>
    (String.ofList digits).toNat?.map fun n => if 0 < n ∧ n ≤ given then .issued n else .nil
  | _ => Uid.read? text

/-- The identity that an alias stands for. -/
def reveal (given : Nat) : Json → Json
  | .string text =>
    if text.startsWith "uid-" then Json.ofOption Json.ofUid (read? given text) else .string text
  | j => j

/-- A time that is there. -/
def hideTime (j : Json) : Json := if j = .null then .null else .string "<set>"

/-- An object as it is written. -/
def hideIn (given : Nat) (object : Json) : Json := mapMetadata (hide given) hideTime object

/-- An object whose identities may be written as aliases. -/
def revealIn (given : Nat) (object : Json) : Json := mapMetadata (reveal given) id object

end Alias
end CampaignControl
