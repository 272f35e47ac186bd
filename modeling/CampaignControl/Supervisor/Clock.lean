import CampaignControl.Supervisor.Task

/-!
# The course of time

Starting a supervisor, letting time pass and shutting it down. Nothing else makes its tasks go
on.
-/

namespace CampaignControl
namespace Supervisor

/-- Starts the tasks, which go on when time passes. -/
def start (s : Supervisor) : Except Refusal Supervisor :=
  if s.isClosed then .error .closed
  else
    let (subscriber, bus) := s.bus.subscribe
    .ok ({ s with bus, starts := s.starts + 1 }.wake
      [.observe subscriber, .resync, .dispatch s.starts])

/-- Moves the clock to a time and makes the tasks ready that have waited for it. -/
def strike (s : Supervisor) (time : Nat) : Supervisor :=
  let isDue (alarm : Nat × Task) : Bool := decide (alarm.1 ≤ time)
  let tasks := (s.alarms.takeWhile isDue).map Prod.snd
  { s with
    clock := time
    alarms := s.alarms.dropWhile isDue
    idle := s.idle.filter fun dispatcher => .dispatch dispatcher ∉ tasks
    ready := s.ready ++ tasks }

/-- Lets time pass up to a deadline, with the turns of all tasks at every time that some have
waited for, of which there are at most so many. -/
def passTime (deadline : Nat) : Nat → Supervisor → Supervisor
  | 0, s => { s with clock := deadline }
  | more + 1, s =>
    match s.alarms with
    | [] => { s with clock := deadline }
    | (time, _) :: _ =>
      if time ≤ deadline then passTime deadline more (s.strike time).settle
      else { s with clock := deadline }

/-- Lets so many milliseconds pass. Tasks wait for whole milliseconds after the present one, so
that there are no more times to stop at than milliseconds. -/
def advance (s : Supervisor) (milliseconds : Nat) : Supervisor :=
  passTime (s.clock + milliseconds) milliseconds s.settle

/-- Ends all tasks. Those that wait for a time or for a target have nothing left to do, and a
target for which there was no worker is given back. -/
def shutDown (s : Supervisor) : Supervisor :=
  let s := { s with isClosed := true, idle := [], alarms := [] }
  let s := (s.waiting.map Prod.snd).foldl finish { s with waiting := [] }
  ({ s with listening := [] }.wake (s.listening.map .observe)).settle

end Supervisor
end CampaignControl
