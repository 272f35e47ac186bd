import CampaignControl.Object

/-!
# The store

A store holds objects in slots and counts its writes; the count is the version of what has been
written last. A change has to be based on the version that is stored. An object with finalizers
is not removed when its deletion is requested but marked, and it goes when a change leaves it
without finalizers. With an object that is removed go the objects that it owns, or they lose
their owner.

The objects that go with an object are found by its identity (`Store.ownedBy`), and
`Store.withdraw` requests the deletion of one slot after the other, each with what it owns right
behind it. It comes to an end whatever owns what, because a slot that brings further slots with
it has lost its object.
-/

namespace CampaignControl

/-- What becomes of the objects that an object owns when it is removed. -/
inductive Propagation where
  /-- They are deleted after it. -/
  | background
  /-- They are deleted with it. -/
  | foreground
  /-- They stay, without an owner. -/
  | orphan
  deriving DecidableEq, Repr, Inhabited

/-- Which of the objects of a kind are listed. -/
structure Filter where
  /-- The namespace, if only one is wanted. -/
  space : Option String := none
  /-- Labels that have to be there with the same values. -/
  labels : List (String × String) := []
  /-- The identity of the owner, if only its objects are wanted. -/
  owner : Option Uid := none
  deriving DecidableEq, Repr, Inhabited

/-- Whether an object with this metadata is wanted. -/
def Filter.selects (f : Filter) (m : Metadata) : Bool :=
  (match f.space with | none => true | some space => m.key.space == space) &&
  (match f.owner with | none => true | some uid => m.owner.map (·.uid) == some uid) &&
  f.labels.all fun (name, value) => Keyed.find? name m.labels == some value

structure Store where
  objects : List (Slot × Object) := []
  /-- The number of writes, which is the version of the last one. -/
  revision : Nat := 0
  /-- The number of objects that have been created. -/
  created : Nat := 0
  deriving DecidableEq, Repr, Inhabited

namespace Store

def find? (s : Store) (slot : Slot) : Option Object := Keyed.find? slot s.objects

/-- The objects of a kind that the filter selects, by key. -/
def list (s : Store) (kind : Kind) (filter : Filter) : List Object :=
  (s.objects.filter fun (slot, object) =>
    decide (slot.kind = kind) && filter.selects object.metadata).map Prod.snd

/-- The number of objects of a kind. -/
def count (s : Store) (kind : Kind) : Nat := s.objects.countP fun e => decide (e.1.kind = kind)

/-- Counts a write. -/
def advance (s : Store) : Store := { s with revision := s.revision + 1 }

def put (s : Store) (slot : Slot) (object : Object) : Store :=
  { s with objects := Keyed.insert slot object s.objects }

def drop (s : Store) (slot : Slot) : Store := { s with objects := Keyed.erase slot s.objects }

/-- Changes the metadata in a slot, with the current revision as its version. -/
def touch (s : Store) (slot : Slot) (f : Metadata → Metadata) : Store :=
  { s with
    objects := Keyed.adjust slot
      (fun o => { o with metadata := { f o.metadata with version := s.revision } }) s.objects }

/-- The slots of the objects whose owner has this identity. -/
def ownedBy (s : Store) (uid : Option Uid) : List Slot :=
  match uid with
  | none => []
  | some uid =>
    (s.objects.filter fun e => decide (e.2.metadata.owner.map (·.uid) = some uid)).map Prod.fst

/-- Requests the deletion of the object in each slot, and of what goes with it. -/
def withdraw (now : Instant) : List Slot → Store → Store
  | [], s => s
  | slot :: rest, s =>
    match _found : s.find? slot with
    | none => withdraw now rest s.advance
    | some object =>
      if object.metadata.finalizers = [] then
        let left := s.advance.drop slot
        withdraw now (left.ownedBy object.metadata.uid ++ rest) left
      else if object.metadata.isDeleting then withdraw now rest s.advance
      else
        withdraw now rest (s.advance.touch slot fun m => { m with deletedAt := some now })
termination_by slots s => (s.objects.length, slots.length)
decreasing_by
  · exact Prod.Lex.right _ (by simp)
  · exact Prod.Lex.left _ _ (Keyed.length_erase_lt _found)
  · exact Prod.Lex.right _ (by simp)
  · simp only [advance, touch, Keyed.length_adjust]
    exact Prod.Lex.right _ (by simp)

/-- Takes the owner from the object in each slot. -/
def disown (slots : List Slot) (s : Store) : Store :=
  slots.foldl (fun s slot => s.advance.touch slot fun m => { m with owner := none }) s

/-- Removes the object in a slot, and does with what it owns as the propagation says. -/
def remove (now : Instant) (propagation : Propagation) (slot : Slot) (s : Store) : Store :=
  match s.find? slot with
  | none => s
  | some object =>
    let left := s.drop slot
    match propagation with
    | .orphan => left.disown (left.ownedBy object.metadata.uid)
    | .background | .foreground => left.withdraw now (left.ownedBy object.metadata.uid)

def get (s : Store) (kind : Kind) (key : Key) : Except StoreError Object :=
  match s.find? { kind, key } with
  | some object => .ok object
  | none => .error (.notFound kind key)

/-- Stores a new object, which gets an identity, a version and the time of its creation. -/
def create (now : Instant) (kind : Kind) (object : Object) (s : Store) :
    Except StoreError Object × Store :=
  let slot : Slot := { kind, key := object.key }
  match s.find? slot with
  | some _ => (.error (.alreadyExists kind object.key), s)
  | none =>
    let s := s.advance
    let stored : Object :=
      { object with
        metadata :=
          { object.metadata with
            uid := some (.issued (s.created + 1))
            version := s.revision
            createdAt := some now
            deletedAt := none } }
    (.ok stored, { s.put slot stored with created := s.created + 1 })

/-- Replaces an object by a changed one that is based on the stored version. The identity and
the times cannot be changed. An object whose deletion has been requested goes once it is without
finalizers. -/
def update (now : Instant) (kind : Kind) (object : Object) (s : Store) :
    Except StoreError Object × Store :=
  let slot : Slot := { kind, key := object.key }
  match s.find? slot with
  | none => (.error (.notFound kind object.key), s)
  | some old =>
    if old.metadata.version ≠ object.metadata.version then
      (.error (.conflict kind object.key object.metadata.version old.metadata.version), s)
    else
      let s := s.advance
      let stored : Object :=
        { object with
          metadata :=
            { object.metadata with
              uid := old.metadata.uid
              version := s.revision
              createdAt := old.metadata.createdAt
              deletedAt := old.metadata.deletedAt } }
      let s := s.put slot stored
      if stored.metadata.isDeleting && stored.metadata.finalizers.isEmpty then
        (.ok stored, s.remove now .background slot)
      else (.ok stored, s)

/-- Requests the deletion of an object: it is removed, or marked while it has finalizers. -/
def delete (now : Instant) (kind : Kind) (key : Key) (propagation : Propagation) (s : Store) :
    Except StoreError Unit × Store :=
  let slot : Slot := { kind, key }
  let s := s.advance
  match s.find? slot with
  | none => (.error (.notFound kind key), s)
  | some object =>
    if object.metadata.finalizers = [] then (.ok (), s.remove now propagation slot)
    else if object.metadata.isDeleting then (.ok (), s)
    else (.ok (), s.touch slot fun m => { m with deletedAt := some now })

end Store
end CampaignControl
