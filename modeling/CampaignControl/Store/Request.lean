import CampaignControl.Store

/-!
# Requests to a store

The calls of a store as values, so that something can come between a caller and the store.
-/

namespace CampaignControl

inductive StoreRequest where
  | get (kind : Kind) (key : Key)
  | list (kind : Kind) (filter : Filter)
  | create (kind : Kind) (object : Object)
  | update (kind : Kind) (object : Object)
  | delete (kind : Kind) (key : Key) (propagation : Propagation)
  deriving DecidableEq, Repr, Inhabited

namespace StoreRequest

/-- What a request that succeeds brings. -/
abbrev Result : StoreRequest → Type
  | get .. | create .. | update .. => Object
  | list .. => List Object
  | delete .. => Unit

/-- What a request brings. -/
abbrev Reply (r : StoreRequest) : Type := Except StoreError r.Result

def kind : StoreRequest → Kind
  | get kind _ | list kind _ | create kind _ | update kind _ | delete kind .. => kind

/-- The key that a request is about. A listing is about none. -/
def key : StoreRequest → Key
  | get _ key | delete _ key _ => key
  | create _ object | update _ object => object.key
  | list .. => { space := "", name := "" }

end StoreRequest

/-- What a store does on a request at a time. -/
def Store.serve (now : Instant) : (r : StoreRequest) → Store → r.Reply × Store
  | .get kind key, s => (s.get kind key, s)
  | .list kind filter, s => (.ok (s.list kind filter), s)
  | .create kind object, s => s.create now kind object
  | .update kind object, s => s.update now kind object
  | .delete kind key propagation, s => s.delete now kind key propagation

end CampaignControl
