import CampaignControl.Bus
import CampaignControl.Rehearsal.Stage
import CampaignControl.Streaks
import CampaignControl.WorkQueue

/-!
# The supervisor

A supervisor keeps all campaigns and work units passed. Its tasks take turns: an observer asks
for passes when events call for them, a resync asks for a pass over everything at intervals, and
a dispatcher takes targets that are due from the queue and gives each of them to a free worker.
After a pass the worker asks for the next one.

A task runs until it has to wait, and what it waits for makes it ready again. Tasks that are
ready go on in the order in which they have become so. The clock of the supervisor counts
milliseconds and moves only while no task is ready. The times in the queue are nanoseconds of the
system's clock, which goes on with it.
-/

namespace CampaignControl

/-- What a task does when it is its turn. -/
inductive Supervisor.Task where
  /-- Reads the events for a subscriber. -/
  | observe (subscriber : Nat)
  /-- Asks for a pass over everything. -/
  | resync
  /-- Looks for a target that is due, as the dispatcher of this number. -/
  | dispatch (dispatcher : Nat)
  /-- Gives a target to a worker that the dispatcher has waited for. -/
  | assign (dispatcher : Nat) (target : Target)
  /-- Makes a pass. -/
  | pass (target : Target)
  deriving DecidableEq, Repr, Inhabited

structure Supervisor where
  settings : Settings := {}
  stage : Stage := {}
  bus : Bus := {}
  queue : WorkQueue := {}
  streaks : Streaks := {}
  /-- The tasks that can go on. -/
  ready : List Supervisor.Task := []
  /-- The subscribers whose observers wait for an event. -/
  listening : List Nat := []
  /-- The dispatchers that wait for a target. -/
  idle : List Nat := []
  /-- Whether there has been a new target while no dispatcher waited for one. -/
  signalled : Bool := false
  /-- The dispatchers that wait for a worker, with their targets. -/
  waiting : List (Nat × Target) := []
  /-- The number of workers that have nothing to do. -/
  freeWorkers : Nat := 1
  /-- The tasks that wait for a time, in the order in which they will get ready. -/
  alarms : List (Nat × Supervisor.Task) := []
  /-- The number of times that the supervisor has been started. -/
  starts : Nat := 0
  /-- The milliseconds that have passed. -/
  clock : Nat := 0
  /-- What the clock of the system has shown before any have passed. -/
  origin : Nat := 1_000_000_000
  /-- The time of day for passes. It comes from outside and has nothing to do with the clock. -/
  time : Instant := .epoch
  isClosed : Bool := false
  deriving Inhabited

namespace Supervisor

/-- Why a supervisor cannot be made or started. -/
inductive Refusal where
  | storeMissing
  | discoveryMissing
  | noWorkers
  | noEventRoom
  /-- The supervisor has been shut down. -/
  | closed
  deriving DecidableEq, Repr, Inhabited

def Refusal.message : Refusal → String
  | storeMissing => "store dependency missing"
  | discoveryMissing => "discovery dependency missing"
  | noWorkers => "worker_count must be at least 1"
  | noEventRoom => "event_capacity must be at least 1"
  | closed => "controller runtime already shut down"

/-- What a supervisor is made of. -/
structure Parts where
  settings : Settings := {}
  store : Option Store := none
  /-- The repositories of each campaign, as discovery finds them. -/
  discovery : Option (List (Key × List String)) := none
  /-- The bus for events, if it is not to be one of the capacity in the settings. -/
  bus : Option Bus := none
  deriving Inhabited

/-- The supervisor that is made of these parts. -/
def ofParts (parts : Parts) : Except Refusal Supervisor := do
  let settings := parts.settings
  let some store := parts.store | throw .storeMissing
  let some repositories := parts.discovery | throw .discoveryMissing
  if settings.workerCount = 0 then throw .noWorkers
  if settings.eventCapacity = 0 then throw .noEventRoom
  return { settings
           stage := { store, repositories }
           bus := parts.bus.getD (.ofCapacity settings.eventCapacity)
           freeWorkers := settings.workerCount }

/-! ## What makes tasks ready -/

/-- Makes tasks ready. -/
def wake (s : Supervisor) (tasks : List Task) : Supervisor := { s with ready := s.ready ++ tasks }

/-- Lets a task go on before all others. -/
def goOn (s : Supervisor) (task : Task) : Supervisor := { s with ready := task :: s.ready }

/-- Makes a task ready at a time, after those that are to be ready then already. -/
def wakeAt (s : Supervisor) (deadline : Nat) (task : Task) : Supervisor :=
  let isEarlier (alarm : Nat × Task) : Bool := decide (alarm.1 ≤ deadline)
  { s with
    alarms := s.alarms.takeWhile isEarlier ++ (deadline, task) :: s.alarms.dropWhile isEarlier }

/-- Tells the dispatcher that has waited longest of a change in the queue. -/
def signal (s : Supervisor) : Supervisor :=
  match s.idle with
  | [] => { s with signalled := true }
  | dispatcher :: rest =>
    { s with
      idle := rest
      alarms := s.alarms.filter fun alarm => alarm.2 ≠ .dispatch dispatcher
      ready := s.ready ++ [.dispatch dispatcher] }

/-- What the clock of the queue shows. -/
def now (s : Supervisor) : Nat := s.origin + s.clock * 1_000_000

/-- The first millisecond of the supervisor's clock that is not before this time of the clock of the
queue. -/
def millisecond (s : Supervisor) (time : Nat) : Nat :=
  (time - s.origin + (1_000_000 - 1)) / 1_000_000

/-- Asks for a pass after so many nanoseconds. There will be no pass if the request fails, which
ends the task that makes it. -/
def requestAfter (s : Supervisor) (target : Target) (delay : Nat) : Supervisor :=
  match s.queue.requestAfter? target s.now delay with
  | none => s
  | some (isNew, queue) =>
    let s := { s with queue }
    if isNew then s.signal else s

/-- Asks for a pass as soon as possible. -/
def enqueue (s : Supervisor) (target : Target) : Supervisor := s.requestAfter target 0

/-- Marks a pass as finished. -/
def finish (s : Supervisor) (target : Target) : Supervisor :=
  let wasRequested := Keyed.contains target s.queue.deferred
  let s := { s with queue := s.queue.finish target }
  if wasRequested then s.signal else s

/-- Passes events on to the subscribers. -/
def publish (s : Supervisor) (events : List Event) : Supervisor :=
  if events.isEmpty then s
  else
    { s with
      bus := events.foldl Bus.publish s.bus
      listening := []
      ready := s.ready ++ s.listening.map .observe }

/-- Lets a worker go: to the dispatcher that has waited longest for one, if any waits. -/
def releaseWorker (s : Supervisor) : Supervisor :=
  match s.waiting with
  | [] => { s with freeWorkers := s.freeWorkers + 1 }
  | (dispatcher, target) :: rest =>
    { s with waiting := rest, ready := s.ready ++ [.assign dispatcher target] }

end Supervisor
end CampaignControl
