import CampaignControl.Campaign
import CampaignControl.Event
import CampaignControl.Metrics
import CampaignControl.Store.Request

/-!
# Programs

A pass is a program that makes requests of its surroundings, one at a time, and goes on with
their replies. As a program is a value, its requests can be served one by one, with those of
other programs in between.
-/

namespace CampaignControl

/-- What a program can ask for. -/
inductive Request where
  | store (request : StoreRequest)
  /-- The repositories of a campaign. -/
  | discover (campaign : Campaign)
  /-- An identity for the events of one pass. -/
  | correlate
  | publish (event : Event)
  | measure (measurement : Measurement)

/-- What a request brings. Discovery can fail for a reason; nobody hears of an event that could
not be published. -/
abbrev Request.Reply : Request → Type
  | .store request => request.Reply
  | .discover _ => Except String (List String)
  | .correlate => Uid
  | .publish _ | .measure _ => Unit

inductive Program (α : Type) where
  | done (value : α)
  | ask (request : Request) (next : request.Reply → Program α)

namespace Program

variable {α β : Type}

/-- Goes on with the value of a program. -/
protected def bind (p : Program α) (f : α → Program β) : Program β :=
  match p with
  | done value => f value
  | ask request next => ask request fun reply => (next reply).bind f

instance : Monad Program where
  pure := done
  bind := Program.bind

/-- The program that makes one request. -/
def request (r : Request) : Program r.Reply := ask r done

/-- The value of a program and the state of its surroundings after it, where `answer` says what
they do on a request. -/
def run {σ : Type} (answer : (r : Request) → σ → r.Reply × σ) : Program α → σ → α × σ
  | done value, s => (value, s)
  | ask r next, s =>
    let (reply, s) := answer r s
    (next reply).run answer s

@[simp] theorem run_done {σ : Type} (answer : (r : Request) → σ → r.Reply × σ) (a : α) (s : σ) :
    (done a).run answer s = (a, s) := rfl

@[simp] theorem run_ask {σ : Type} (answer : (r : Request) → σ → r.Reply × σ) (r : Request)
    (next : r.Reply → Program α) (s : σ) :
    (ask r next).run answer s = (next (answer r s).1).run answer (answer r s).2 := rfl

theorem run_bind {σ : Type} (answer : (r : Request) → σ → r.Reply × σ) (p : Program α)
    (f : α → Program β) (s : σ) :
    (p >>= f).run answer s = (f (p.run answer s).1).run answer (p.run answer s).2 := by
  show (p.bind f).run answer s = _
  induction p generalizing s with
  | done => rfl
  | ask r next ih => exact ih _ _

theorem bind_done (p : Program α) : p.bind done = p := by
  induction p with
  | done => rfl
  | ask r next ih => exact congrArg (ask r) (funext ih)

theorem bind_bind {γ : Type} (p : Program α) (f : α → Program β) (g : β → Program γ) :
    (p.bind f).bind g = p.bind fun a => (f a).bind g := by
  induction p with
  | done => rfl
  | ask r next ih => exact congrArg (ask r) (funext ih)

instance : LawfulMonad Program :=
  LawfulMonad.mk' Program bind_done (fun _ _ => rfl) bind_bind

end Program
end CampaignControl
