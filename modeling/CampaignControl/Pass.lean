import CampaignControl.Error
import CampaignControl.Program

/-!
# Passes

A pass is a program that may end with an error. Here are the requests of a pass in terms of
resources, and the way in which a pass changes an object that others may change at the same
time (`Pass.modify`): it reads the object, works on what it has read and writes the result back,
and begins again when the object has got another version meanwhile.
-/

namespace CampaignControl

abbrev Pass (α : Type) := ExceptT Error Program α

namespace Pass

variable {α β : Type} [Resource α]

/-- A program that cannot fail, as a pass. -/
def lift {γ : Type} (p : Program γ) : Pass γ := ExceptT.lift p

/-- What a pass comes to, as the value of a pass that cannot fail. -/
def outcome {γ : Type} (p : Pass γ) : Pass (Except Error γ) := lift p.run

/-- A result of the store, with its error as that of the pass. -/
def ofStore {γ : Type} : Except StoreError γ → Pass γ
  | .ok value => pure value
  | .error e => throw (.store e)

/-- The object that a reply of the store holds. -/
def decoded : Except StoreError Object → Except StoreError α
  | .ok object => Resource.decode object
  | .error e => .error e

/-- The object at a key, if there is one. -/
def find? (key : Key) : Pass (Option α) := do
  match ← lift (.request (.store (.get (Resource.kind α) key))) with
  | .ok object => some <$> ofStore (Resource.decode object)
  | .error e => if e.isNotFound then return none else throw (.store e)

/-- The object at a key. -/
def get (key : Key) : Pass α := do
  ofStore (decoded (← lift (.request (.store (.get (Resource.kind α) key)))))

/-- The objects that a filter selects. -/
def list (filter : Filter) : Pass (List α) := do
  match ← lift (.request (.store (.list (Resource.kind α) filter))) with
  | .ok objects => ofStore (objects.mapM Resource.decode)
  | .error e => throw (.store e)

/-- Creates an object, and answers what has been stored. -/
def create (a : α) : Program (Except StoreError α) := do
  return decoded (← .request (.store (.create (Resource.kind α) (Resource.encode a))))

/-- Writes an object back, and answers what has been stored. -/
def update (a : α) : Program (Except StoreError α) := do
  return decoded (← .request (.store (.update (Resource.kind α) (Resource.encode a))))

/-- Requests the deletion of an object, after which what it owns is deleted. -/
def delete (kind : Kind) (key : Key) : Program (Except StoreError Unit) :=
  .request (.store (.delete kind key .background))

/-- An identity for the events of this pass. -/
def correlate : Pass Uid := lift (.request .correlate)

def measure (m : Measurement) : Pass Unit := lift (.request (.measure m))

def publish (e : Event) : Pass Unit := lift (.request (.publish e))

/-- Tries at most so many times to change the object at a key, out of so many in all. The change
may do something else in each attempt, which it knows by how many are left after it. -/
def modifyWithin (key : Key) (change : Nat → α → α × Option β) (attempts : Nat) :
    Nat → Pass (Option (α × Option β))
  | 0 => throw (.retriesExhausted key attempts)
  | left + 1 => do
    match ← find? key with
    | none => return none
    | some current =>
      match change left current with
      | (same, none) => return some (same, none)
      | (changed, some note) =>
        match ← lift (update changed) with
        | .ok stored => return some (stored, some note)
        | .error e =>
          if e.isConflict then modifyWithin key change attempts left
          else if e.isNotFound then return none
          else throw (.store e)

/-- Changes the object at a key, in the given number of attempts and at least one. The change
answers a note on what it has done, or none if nothing is to be written. There is no result when
there is no object. -/
def modifyBy (key : Key) (attempts : Nat) (change : Nat → α → α × Option β) :
    Pass (Option (α × Option β)) :=
  modifyWithin key change (max attempts 1) (max attempts 1)

/-- Changes the object at a key in the same way in every attempt. -/
def modify (key : Key) (attempts : Nat) (change : α → α × Option β) :
    Pass (Option (α × Option β)) :=
  modifyBy key attempts fun _ => change

end Pass
end CampaignControl
