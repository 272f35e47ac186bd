import CampaignControl.Admission.Pass
import CampaignControl.Lifecycle.Pass
import CampaignControl.Supervisor

/-!
# The tasks of the supervisor

What each task does when it is its turn (`Supervisor.perform`), and the turns of all tasks until
none is ready (`Supervisor.settle`).
-/

namespace CampaignControl

/-- The pass over a target. -/
def Target.pass (settings : Settings) (time : Instant) :
    Target → Program (Except Error Action)
  | .campaign key => Admission.reconcile settings key time
  | .workUnit key => Lifecycle.reconcile settings key time

/-- The targets for everything in the store. -/
def Target.all : Pass (List Target) := do
  let campaigns : List Campaign ← Pass.list {}
  let units : List WorkUnit ← Pass.list {}
  return campaigns.map (.campaign ·.key) ++ units.map (.workUnit ·.key)

namespace Supervisor

/-- Makes a pass over a target, whether it is its turn or not. -/
def passOver (s : Supervisor) (target : Target) : Except Error Action × Supervisor :=
  let (result, stage) := s.stage.run (target.pass s.settings s.time)
  (result, { s with stage := { stage with events := [] } }.publish stage.events)

/-- Reads the events for a subscriber and asks for the passes that they call for. -/
def observe (s : Supervisor) (subscriber : Nat) : Supervisor :=
  if s.isClosed then { s with bus := s.bus.unsubscribe subscriber }
  else
    let (events, bus) := s.bus.drain subscriber
    let s := (events.flatMap Event.targets).foldl enqueue { s with bus }
    { s with listening := s.listening ++ [subscriber] }

/-- Asks for a pass over everything, now and after the interval again. When the store does not
answer, this has to wait until then. -/
def resync (s : Supervisor) : Supervisor :=
  let (result, stage) := s.stage.run Target.all.run
  let s := { s with stage }
  let s := match result with
    | .ok targets => targets.foldl enqueue s
    | .error _ => s
  if s.isClosed then s else s.wakeAt (s.clock + max s.settings.resyncInterval 1) .resync

/-- Gives a target to a worker and looks for another one. -/
def employ (s : Supervisor) (dispatcher : Nat) (target : Target) : Supervisor :=
  (s.wake [.pass target]).goOn (.dispatch dispatcher)

/-- Looks for a target that is due. Without one the dispatcher waits for a change in the queue or
for the time of the next target, which is rounded up to a millisecond. -/
def dispatch (s : Supervisor) (dispatcher : Nat) : Supervisor :=
  if s.isClosed then s
  else
    match s.queue.take s.now with
    | (some target, queue) =>
      let s := { s with queue }
      match s.freeWorkers with
      | 0 => { s with waiting := s.waiting ++ [(dispatcher, target)] }
      | more + 1 => { s with freeWorkers := more }.employ dispatcher target
    | (none, queue) =>
      let s := { s with queue }
      if s.signalled then { s with signalled := false }.goOn (.dispatch dispatcher)
      else
        let s := { s with idle := s.idle ++ [dispatcher] }
        match queue.nextDue? with
        | some due => s.wakeAt (s.millisecond due) (.dispatch dispatcher)
        | none => s

/-- Gives a target to the worker that its dispatcher has waited for. -/
def assign (s : Supervisor) (dispatcher : Nat) (target : Target) : Supervisor :=
  if s.isClosed then (s.finish target).releaseWorker else s.employ dispatcher target

/-- Makes a pass over a target and asks for the next one. -/
def work (s : Supervisor) (target : Target) : Supervisor :=
  let (result, s) := s.passOver target
  let delay := s.streaks.delay? s.settings.retry target result
  let s := { s with streaks := s.streaks.after target result }.finish target
  let s := match delay with
    | some delay => s.requestAfter target delay
    | none => s
  s.releaseWorker

/-- The turn of a task. -/
def perform (s : Supervisor) : Task → Supervisor
  | .observe subscriber => s.observe subscriber
  | .resync => s.resync
  | .dispatch dispatcher => s.dispatch dispatcher
  | .assign dispatcher target => s.assign dispatcher target
  | .pass target => s.work target

/-- The turn of the task that has been ready longest. -/
def step (s : Supervisor) : Supervisor :=
  match s.ready with
  | [] => s
  | task :: rest => { s with ready := rest }.perform task

/-- At most so many turns, until no task is ready. -/
def turns : Nat → Supervisor → Supervisor
  | 0, s => s
  | left + 1, s => if s.ready.isEmpty then s else turns left s.step

/-- How many turns there are at most before the clock moves on. Targets that are due again at
once would keep it from doing so forever. -/
def patience : Nat := 1000000

/-- Lets all tasks go on until they have to wait. -/
def settle (s : Supervisor) : Supervisor := turns patience s

end Supervisor
end CampaignControl
