import CampaignControl.Keyed
import CampaignControl.Target

/-!
# The work queue

Targets wait in a queue until they are due. A target waits at most once, for the earliest of the
times that it has been requested for. From when it is taken until it is finished it is in
flight; requests for it are put off until then.

An earlier request for a waiting target makes a second entry and leaves the first one in place.
An entry counts only as long as it says when its target is due (`WorkQueue.isCurrent`); the
others are dropped when they come to the front.

Times are nanoseconds of a clock that never shows `WorkQueue.horizon` or more. A request for a time
that it cannot show fails (`WorkQueue.requestAfter?`).
-/

namespace CampaignControl

/-- A note that a target is due at a time. -/
structure WorkQueue.Entry where
  due : Nat
  /-- The number of the entry, by which entries for the same time are ordered. -/
  number : Nat
  target : Target
  deriving DecidableEq, Repr, Inhabited

structure WorkQueue where
  /-- When each waiting target is due. -/
  scheduled : List (Target × Nat) := []
  /-- The entries, by time and for the same time by number. -/
  entries : List WorkQueue.Entry := []
  /-- The targets that have been taken and are not finished. -/
  inFlight : List Target := []
  /-- The earliest time that a target in flight has been requested for. -/
  deferred : List (Target × Nat) := []
  /-- The number of entries that have been made. -/
  made : Nat := 0
  deriving DecidableEq, Repr, Inhabited

namespace WorkQueue

def isInFlight (q : WorkQueue) (target : Target) : Bool := decide (target ∈ q.inFlight)

/-- When a target is due, if it waits. -/
def due? (q : WorkQueue) (target : Target) : Option Nat := Keyed.find? target q.scheduled

/-- The number of waiting targets. -/
def length (q : WorkQueue) : Nat := q.scheduled.length

/-- Whether an entry says when its target is due. -/
def isCurrent (q : WorkQueue) (entry : Entry) : Bool :=
  decide (q.due? entry.target = some entry.due)

/-- Whether a request makes a difference to what waits: its target is not in flight, and it does
not wait for that time or an earlier one. -/
def accepts (q : WorkQueue) (target : Target) (due : Nat) : Bool :=
  !q.isInFlight target &&
    match q.due? target with
    | some present => decide (due < present)
    | none => true

/-- Makes a target wait for a time. Its entry comes behind those for the same time. -/
def enter (q : WorkQueue) (target : Target) (due : Nat) : WorkQueue :=
  let entry : Entry := { due, number := q.made + 1, target }
  let isEarlier (other : Entry) : Bool := decide (other.due ≤ due)
  { q with
    scheduled := Keyed.insert target due q.scheduled
    entries := q.entries.takeWhile isEarlier ++ entry :: q.entries.dropWhile isEarlier
    made := q.made + 1 }

/-- Puts a request off until its target is finished. -/
def defer (q : WorkQueue) (target : Target) (due : Nat) : WorkQueue :=
  let earliest := match Keyed.find? target q.deferred with
    | some present => min present due
    | none => due
  { q with deferred := Keyed.insert target earliest q.deferred }

/-- Requests a target for a time. -/
def schedule (q : WorkQueue) (target : Target) (due : Nat) : WorkQueue :=
  if q.isInFlight target then q.defer target due
  else if q.accepts target due then q.enter target due
  else q

/-- The clock shows seconds as signed numbers of 64 bits, so it stays below this time. -/
def horizon : Nat := 0x8000000000000000 * 1_000_000_000

/-- Requests a target for after a delay. Answers also whether that makes a difference to what waits.
A request for a time that the clock cannot show fails before it has touched the queue. -/
def requestAfter? (q : WorkQueue) (target : Target) (now delay : Nat) : Option (Bool × WorkQueue) :=
  let due := now + delay
  if due < horizon then some (q.accepts target due, q.schedule target due) else none

/-- Drops the entries in front that do not count. -/
def refresh (q : WorkQueue) : WorkQueue :=
  { q with entries := q.entries.dropWhile fun entry => !q.isCurrent entry }

/-- When the next target is due. -/
def nextDue? (q : WorkQueue) : Option Nat := q.refresh.entries.head?.map (·.due)

/-- Takes the target that is due next, if it is due by now. -/
def take (q : WorkQueue) (now : Nat) : Option Target × WorkQueue :=
  let q := q.refresh
  match q.entries with
  | [] => (none, q)
  | entry :: rest =>
    if entry.due ≤ now then
      (some entry.target,
        { q with
          scheduled := Keyed.erase entry.target q.scheduled
          entries := rest
          inFlight := entry.target :: q.inFlight })
    else (none, q)

/-- Waits for a target from now on, but no longer than so long, and takes it. Answers also the time
at which the waiting has come to its end. -/
def wait (q : WorkQueue) (now longest : Nat) : Option Target × Nat × WorkQueue :=
  let deadline := now + longest
  let time := max now (min (q.nextDue?.getD deadline) deadline)
  let (target, q) := q.take time
  (target, time, q)

/-- Finishes a target. If it has been requested meanwhile, it waits again. -/
def finish (q : WorkQueue) (target : Target) : WorkQueue :=
  let q := { q with inFlight := q.inFlight.filter (· ≠ target) }
  match Keyed.find? target q.deferred with
  | some due => { q with deferred := Keyed.erase target q.deferred }.schedule target due
  | none => q

@[simp] theorem isInFlight_iff {q : WorkQueue} {target : Target} :
    q.isInFlight target = true ↔ target ∈ q.inFlight := by
  simp [isInFlight]

theorem requestAfter?_of_lt {now delay : Nat} (h : now + delay < horizon) (q : WorkQueue)
    (target : Target) : q.requestAfter? target now delay =
      some (q.accepts target (now + delay), q.schedule target (now + delay)) := if_pos h

theorem requestAfter?_of_le {now delay : Nat} (h : horizon ≤ now + delay) (q : WorkQueue)
    (target : Target) : q.requestAfter? target now delay = none := if_neg (Nat.not_lt.2 h)

theorem due?_enter (q : WorkQueue) (target other : Target) (due : Nat) :
    (q.enter target due).due? other = if target = other then some due else q.due? other := by
  simp [enter, due?, Keyed.find?_insert]

theorem due?_defer (q : WorkQueue) (target other : Target) (due : Nat) :
    (q.defer target due).due? other = q.due? other := rfl

theorem due?_refresh (q : WorkQueue) (other : Target) : q.refresh.due? other = q.due? other := rfl

end WorkQueue
end CampaignControl
