import CampaignControl.Event
import CampaignControl.Keyed

/-!
# The event bus

A bus passes events on to its subscribers, each of which reads at its own pace. It keeps so many
of the newest events that a subscriber reads every event unless it falls behind by more than
that; then it is told how many events it has lost and goes on with the oldest one kept. An event
that is published without subscribers is lost.
-/

namespace CampaignControl

structure Bus where
  /-- How many events a subscriber may fall behind. -/
  capacity : Nat := 1
  /-- The events that are kept, the oldest first. -/
  kept : List Event := []
  /-- The number of events that have been passed on. -/
  sent : Nat := 0
  /-- For each subscriber the number of events that it has gone past. -/
  positions : List (Nat × Nat) := []
  /-- The number of subscribers that there have been. -/
  subscriptions : Nat := 0
  deriving DecidableEq, Repr, Inhabited

namespace Bus

/-- A bus without subscribers, which keeps at least one event. -/
def ofCapacity (capacity : Nat) : Bus := { capacity := max capacity 1 }

/-- The number of events that are kept, which is the capacity rounded up to a power of two. -/
def room (b : Bus) : Nat := b.capacity.nextPowerOfTwo

/-- The number of subscribers. -/
def subscribers (b : Bus) : Nat := b.positions.length

/-- A new subscriber, which gets the events from now on. -/
def subscribe (b : Bus) : Nat × Bus :=
  (b.subscriptions,
    { b with
      positions := Keyed.insert b.subscriptions b.sent b.positions
      subscriptions := b.subscriptions + 1 })

def unsubscribe (b : Bus) (subscriber : Nat) : Bus :=
  { b with positions := Keyed.erase subscriber b.positions }

def publish (b : Bus) (event : Event) : Bus :=
  if b.positions.isEmpty then b
  else
    let kept := b.kept ++ [event]
    { b with kept := kept.drop (kept.length - b.room), sent := b.sent + 1 }

/-- What a subscriber gets when it asks for an event. -/
inductive Delivery where
  | event (event : Event)
  /-- There is no event that the subscriber has not gone past. -/
  | empty
  /-- So many events have been lost. -/
  | lagged (lost : Nat)
  /-- The subscriber is none. -/
  | closed
  deriving DecidableEq, Repr, Inhabited

/-- The next event for a subscriber. -/
def receive (b : Bus) (subscriber : Nat) : Delivery × Bus :=
  match Keyed.find? subscriber b.positions with
  | none => (.closed, b)
  | some position =>
    let oldest := b.sent - b.kept.length
    let moved (position : Nat) : Bus :=
      { b with positions := Keyed.insert subscriber position b.positions }
    if position < oldest then (.lagged (oldest - position), moved oldest)
    else
      match b.kept[position - oldest]? with
      | some event => (.event event, moved (position + 1))
      | none => (.empty, b)

/-- All events that a subscriber still gets. -/
def drain (b : Bus) (subscriber : Nat) : List Event × Bus :=
  collect (b.kept.length + 1) b
where
  collect : Nat → Bus → List Event × Bus
    | 0, b => ([], b)
    | more + 1, b =>
      match b.receive subscriber with
      | (.event event, b) =>
        let (events, b) := collect more b
        (event :: events, b)
      | (.lagged _, b) => collect more b
      | (.empty, b) | (.closed, b) => ([], b)

end Bus
end CampaignControl
