import CampaignControl.Object.Kinds
import CampaignControl.Store.Request

/-!
# Scripts

A script lays down what happens at certain requests to a store: that one fails with a given
error, or that someone else changes the store just before it is served.
-/

namespace CampaignControl

/-- A change by someone else. -/
inductive Interference where
  | delete (slot : Slot)
  | create (kind : Kind) (object : Object)
  | edit (slot : Slot) (edits : List Edit)
  deriving DecidableEq, Repr, Inhabited

/-- Makes the change, if it can be made. -/
def Interference.apply (now : Instant) (s : Store) : Interference → Store
  | delete slot => (s.delete now slot.kind slot.key .background).2
  | create kind object => (s.create now kind object).2
  | edit slot edits =>
    match (s.find? slot).bind (Object.edited? edits) with
    | some object => (s.update now slot.kind object).2
    | none => s

namespace Script

/-- The methods of a store. -/
inductive Method where
  | get
  | list
  | create
  | update
  | delete
  deriving DecidableEq, Repr, Inhabited

def methodOf : StoreRequest → Method
  | .get .. => .get
  | .list .. => .list
  | .create .. => .create
  | .update .. => .update
  | .delete .. => .delete

/-- An error to fail with. The kind and the key are those of the request. -/
inductive Fault where
  | notFound
  | alreadyExists
  | conflict (expected actual : Nat)
  | unavailable (reason : String)
  | codec (reason : String)
  deriving DecidableEq, Repr, Inhabited

def Fault.error (kind : Kind) (key : Key) : Fault → StoreError
  | notFound => .notFound kind key
  | alreadyExists => .alreadyExists kind key
  | conflict expected actual => .conflict kind key expected actual
  | unavailable reason => .unavailable reason
  | codec reason => .codec kind reason

inductive Effect where
  | fail (fault : Fault)
  | interfere (change : Interference)
  deriving DecidableEq, Repr, Inhabited

/-- What happens at requests of one method for one kind: nothing at the first `skip` of them,
and then the effect at the next `times`. -/
structure Rule where
  method : Method
  kind : Kind
  skip : Nat
  times : Nat
  effect : Effect
  deriving DecidableEq, Repr, Inhabited

/-- The effect of the first rule that takes effect at a request, and the rules after it. Each
rule in front of it that skips the request has one request less to skip. -/
def trigger (method : Method) (kind : Kind) : List Rule → Option Effect × List Rule
  | [] => (none, [])
  | rule :: rest =>
    if rule.method ≠ method ∨ rule.kind ≠ kind then pass rule (trigger method kind rest)
    else if 0 < rule.skip then
      pass { rule with skip := rule.skip - 1 } (trigger method kind rest)
    else if 0 < rule.times then (some rule.effect, { rule with times := rule.times - 1 } :: rest)
    else pass rule (trigger method kind rest)
where
  /-- The outcome of the rules behind a rule, with the rule in front. -/
  pass (rule : Rule) (outcome : Option Effect × List Rule) : Option Effect × List Rule :=
    (outcome.1, rule :: outcome.2)

end Script
end CampaignControl
