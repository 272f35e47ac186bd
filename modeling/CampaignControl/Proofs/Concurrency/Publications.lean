import CampaignControl.Proofs.Concurrency.History

/-!
# What tasks make known

The events that a task has published are in its past (`published`, `World.Publishes`). An event
does not say which incarnation of its object it is about; that is the one which the task has met
last in the place of the object when it publishes the event (`incarnation?`).
-/

namespace CampaignControl

universe u

/-! ## Events in a past -/

def Exchange.publication (event : Event) (s : Store) : Exchange where
  request := .publish event
  reply := ()
  before := s
  after := s

def Request.event? : Request → Option Event
  | .publish e => some e
  | .store _ | .discover _ | .correlate | .measure _ => none

/-- What has been made known. -/
def published (past : List Exchange) : List Event := past.filterMap fun e => e.request.event?

variable {past past' : List Exchange}

theorem published_append (past past' : List Exchange) :
    published (past ++ past') = published past ++ published past' := List.filterMap_append ..

theorem subset_published (past : List Exchange) (x : Exchange) :
    published past ⊆ published (past ++ [x]) := by
  rw [published_append]
  exact List.subset_append_left ..

theorem mem_published_append (past : List Exchange) (e : Event) (s : Store) :
    e ∈ published (past ++ [.publication e s]) := by
  rw [published_append]
  exact List.mem_append_right _ List.mem_cons_self

/-! ## What an event is about -/

/-- The place that a request is about. A listing is about none. -/
def StoreRequest.slot? : StoreRequest → Option Slot
  | .list .. => none
  | r => some { kind := r.kind, key := r.key }

/-- The object in a slot that an exchange about the slot has met: the one after it, or else the one
before it. -/
def Exchange.met? (slot : Slot) (e : Exchange) : Option Object :=
  match e.request with
  | .store r =>
    if r.slot? = some slot then e.after.find? slot <|> e.before.find? slot else none
  | .discover _ | .correlate | .publish _ | .measure _ => none

/-- What is stored in a slot after a request about it has been met. -/
theorem Exchange.met?_of_after {slot : Slot} {e : Exchange} {r : StoreRequest} {o : Object}
    (hrequest : e.request = .store r) (hslot : r.slot? = some slot)
    (found : e.after.find? slot = some o) : e.met? slot = some o := by
  simp [Exchange.met?, hrequest, hslot, found]

/-- The identity of the object that has been met last in a slot. -/
def incarnation? (slot : Slot) (past : List Exchange) : Option Uid :=
  (past.reverse.findSome? (Exchange.met? slot)).bind (·.metadata.uid)

theorem incarnation?_append {slot : Slot} {e : Exchange} {o : Object} (h : e.met? slot = some o) :
    incarnation? slot (past ++ [e]) = o.metadata.uid := by
  simp [incarnation?, h]

theorem incarnation?_append_none {slot : Slot} {e : Exchange} (h : e.met? slot = none) :
    incarnation? slot (past ++ [e]) = incarnation? slot past := by
  simp [incarnation?, h]

/-- The place of the object that an event is about. -/
def Event.slot (e : Event) : Slot :=
  match e.payload with
  | .admissionRejected _ => { kind := .campaign, key := e.entity }
  | _ => { kind := .workUnit, key := e.entity }

variable {R : Repertoire.{u}} {rules : Rules R} {w w' : World R} {e : Event}

/-- A task has published an event after it had been answered so much. -/
def World.Publishes (w : World R) (front : List Exchange) (e : Event) : Prop :=
  ∃ t ∈ w.tasks, ∃ x back, t.past = front ++ x :: back ∧ x.request.event? = some e

/-- The events of a task, each with what the task had been answered before. -/
def Task.publications (t : Task R) : List (List Exchange × Event) :=
  (List.range t.past.length).filterMap fun n =>
    (t.past[n]?).bind fun x => x.request.event?.map fun e => (t.past.take n, e)

theorem World.publishes_of_mem {t : Task R} (ht : t ∈ w.tasks)
    {publication : List Exchange × Event} (h : publication ∈ t.publications) :
    w.Publishes publication.1 publication.2 := by
  obtain ⟨n, -, hn⟩ := List.mem_filterMap.1 h
  obtain ⟨x, hx, hevent⟩ := Option.bind_eq_some_iff.1 hn
  obtain ⟨e, he, rfl⟩ := Option.map_eq_some_iff.1 hevent
  obtain ⟨hlt, rfl⟩ := List.getElem?_eq_some_iff.1 hx
  refine ⟨t, ht, t.past[n], t.past.drop (n + 1), ?_, he⟩
  rw [← List.drop_eq_getElem_cons hlt, List.take_append_drop]

end CampaignControl
