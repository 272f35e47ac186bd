import CampaignControl.Lifecycle.Pass
import CampaignControl.Proofs.Lifecycle.Change

/-!
# What a lifecycle pass comes to

A lifecycle pass as a function of what is stored of its work unit, which is the work unit and the
execution at its key (`Lifecycle.Visit.pass`). Versions, fresh identities and the times that the
store gives to objects do not matter for what it comes to (`WorkUnit.timeless`,
`Execution.settled`): every change of a work unit leaves them alone, and no decision depends on
them.
-/

namespace CampaignControl

/-! ## What does not matter -/

/-- Metadata without its version and without the times that the store has given it. -/
def Metadata.timeless (m : Metadata) : Metadata :=
  { m with version := 0, createdAt := none, deletedAt := m.deletedAt.map fun _ => .epoch }

/-- Metadata that is also without an identity beyond the first so many ones that were issued. -/
def Metadata.settled (issued : Nat) (m : Metadata) : Metadata :=
  { m.timeless with uid := m.uid.filter fun uid => uid.value ≤ (Uid.issued issued).value }

def Object.settled (issued : Nat) (o : Object) : Object :=
  { o with metadata := o.metadata.settled issued }

def WorkUnit.timeless (u : WorkUnit) : WorkUnit := { u with metadata := u.metadata.timeless }

def Execution.settled (issued : Nat) (e : Execution) : Execution :=
  { e with metadata := e.metadata.settled issued }

theorem Object.settled_encode_timeless (issued : Nat) (u : WorkUnit) :
    (Resource.encode u.timeless).settled issued = (Resource.encode u).settled issued := by
  obtain ⟨⟨_, _, _, _, _, _, _, deletedAt⟩, _, _⟩ := u
  cases deletedAt <;> rfl

/-- An identity that has been issued later does not matter. -/
theorem Metadata.settled_of_lt {issued n : Nat} (h : issued < n) (m : Metadata) :
    ({ m with uid := some (.issued n) } : Metadata).settled issued =
      { m.timeless with uid := none } := by
  have hlt : ¬ (Uid.issued n).value ≤ (Uid.issued issued).value := by
    simp only [Uid.issued]
    omega
  simp only [Metadata.settled, Option.filter_some, hlt, decide_false, Bool.false_eq_true, if_false]
  rfl

namespace WorkUnit

variable (u : WorkUnit)

@[simp] theorem timeless_key : u.timeless.key = u.key := rfl

@[simp] theorem timeless_campaignKey : u.timeless.campaignKey = u.campaignKey := rfl

@[simp] theorem timeless_spec : u.timeless.spec = u.spec := rfl

@[simp] theorem timeless_status : u.timeless.status = u.status := rfl

@[simp] theorem timeless_hasFinalizer (finalizer : String) :
    u.timeless.metadata.hasFinalizer finalizer = u.metadata.hasFinalizer finalizer := rfl

@[simp] theorem timeless_isDeleting :
    u.timeless.metadata.isDeleting = u.metadata.isDeleting := by
  unfold timeless Metadata.timeless Metadata.isDeleting
  cases u.metadata.deletedAt <;> rfl

@[simp] theorem timeless_retentionLeft? (policy : RetentionPolicy) (now : Instant) :
    u.timeless.retentionLeft? policy now = u.retentionLeft? policy now := rfl

@[simp] theorem timeless_toExecution : u.timeless.toExecution = u.toExecution := rfl

theorem timeless_of_metadata {u u' : WorkUnit} (hspec : u'.spec = u.spec)
    (hstatus : u'.status = u.status) (hmetadata : u'.metadata.timeless = u.metadata.timeless) :
    u'.timeless = u.timeless := by
  unfold timeless
  rw [hspec, hstatus, hmetadata]

end WorkUnit

namespace Lifecycle

/-! ## Changes -/

/-- A change of a work unit that does not depend on what does not matter, and leaves it alone. -/
def IgnoresTime {β : Type} (change : WorkUnit → WorkUnit × Option β) : Prop :=
  ∀ u, change u.timeless = ((change u).1.timeless, (change u).2)

theorem ignoresTime_guard : IgnoresTime guard := by
  intro u
  unfold guard
  cases hfin : u.metadata.hasFinalizer WorkUnit.finalizer with
  | true => simp only [WorkUnit.timeless_hasFinalizer, hfin, if_true]
  | false =>
    simp only [Metadata.addFinalizer, WorkUnit.timeless_hasFinalizer, hfin, Bool.false_eq_true,
      if_false]
    rfl

theorem ignoresTime_recordExecution (now : Instant) (execution : Key) :
    IgnoresTime (recordExecution now execution) := by
  intro u
  unfold recordExecution
  cases hsome : u.status.execution.isSome with
  | true => simp only [WorkUnit.timeless_status, hsome, if_true]
  | false =>
    simp only [WorkUnit.timeless_status, hsome, Bool.false_eq_true, if_false]
    rfl

theorem metadata_recordExecution (now : Instant) (key : Key) (u : WorkUnit) :
    (recordExecution now key u).1.metadata = u.metadata := by
  unfold recordExecution
  split <;> rfl

theorem ignoresTime_follow (now : Instant) (o : Observation) (started : Option Instant) :
    IgnoresTime (follow now o started) := by
  intro u
  have hadvance : u.timeless.advance? o started now = (u.advance? o started now).map .timeless := by
    unfold WorkUnit.advance?
    rw [WorkUnit.timeless_status]
    by_cases hstays : u.status.phase = o.phase ∨ !u.status.phase.canMoveTo o.phase
    · rw [if_pos hstays, if_pos hstays]
      rfl
    · rw [if_neg hstays, if_neg hstays]
      rfl
  unfold follow
  rw [hadvance]
  cases u.advance? o started now <;> rfl

/-! ## Visits -/

/-- What is stored at the key of a work unit. -/
structure Site where
  unit : Option WorkUnit := none
  execution : Option Execution := none
  deriving DecidableEq, Repr

/-- What is stored at a key, as far as it matters. -/
def Site.settled (issued : Nat) (site : Site) : Site where
  unit := site.unit.map .timeless
  execution := site.execution.map (.settled issued)

/-- What a pass leaves at its key, what it answers, and what it has made known. -/
structure Visit where
  site : Site
  action : Action
  events : List Event := []
  deriving DecidableEq, Repr

/-- An event about a work unit, from whatever pass. -/
def about (u : WorkUnit) (payload : Event.Payload) : Event :=
  { correlation := .nil, entity := u.key, campaign := u.campaignKey, payload }

namespace Visit

/-- Something has been made known before. -/
def after (e : Event) (v : Visit) : Visit := { v with events := e :: v.events }

/-- The work unit and its execution have gone. -/
def finalize (u : WorkUnit) : Visit where
  site := {}
  action := .awaitChange
  events := [about u .finalized]

section
variable (settings : Settings) (now : Instant)

/-- A finished work unit stays, or goes if its retention has ended. -/
def retain (u : WorkUnit) (e : Option Execution) : Visit :=
  match u.retentionLeft? settings.retention now with
  | some left =>
    if left.nanoseconds ≤ 0 then (finalize u).after (about u .retentionExpired)
    else { site := ⟨some u, e⟩, action := settings.requeue.untilExpiry left }
  | none => { site := ⟨some u, e⟩, action := .afterSeconds settings.requeue.idle }

/-- A work unit stays if there is still something to do. -/
def goOn (u : WorkUnit) (e : Execution) : Visit :=
  if u.status.phase.isTerminal then retain settings now u (some e)
  else { site := ⟨some u, some e⟩, action := .afterSeconds settings.requeue.whileActive }

/-- A work unit follows what its execution reports. -/
def takeOver (u : WorkUnit) (e : Execution) : Visit :=
  match follow now (Observation.ofStatus e.status) e.status.startTime u with
  | (moved, some old) =>
    (goOn settings now moved e).after (about moved (.phaseChanged old moved.status.phase))
  | (same, none) => goOn settings now same e

/-- An execution is there after all, or is created, and is recorded. -/
def start (u : WorkUnit) (e : Option Execution) : Visit :=
  let execution := e.getD u.toExecution
  (takeOver settings now (recordExecution now u.key u).1 execution).after
    (about u (.executionCreated u.key u.spec.batchIndex))

/-- The visit of a work unit that has the finalizer. -/
def passOver (u : WorkUnit) (e : Option Execution) : Visit :=
  if u.status.phase.isTerminal then retain settings now u e
  else if u.status.execution.isNone then start settings now u e
  else
    match e with
    | none => (finalize u).after (about u .orphanRemoved)
    | some execution => takeOver settings now u execution

/-- The visit of what is stored at a key. -/
def pass (site : Site) : Visit :=
  match site.unit with
  | none => { site, action := .awaitChange }
  | some u =>
    if u.metadata.isDeleting then finalize u
    else passOver settings now (guard u).1 site.execution

end

/-! ### Events -/

/-- All events of a visit are about the work unit at a key. -/
def IsAbout (k : Key) (v : Visit) : Prop := ∀ e ∈ v.events, e.entity = k

variable {k : Key} {u : WorkUnit} {v : Visit}

theorem IsAbout.of_nil (h : v.events = []) : v.IsAbout k := by
  intro e he
  rw [h] at he
  cases he

theorem IsAbout.after (h : v.IsAbout k) (hkey : u.key = k) (payload : Event.Payload) :
    (v.after (about u payload)).IsAbout k := by
  intro e he
  rcases List.mem_cons.1 he with rfl | he
  · exact hkey
  · exact h e he

theorem isAbout_finalize (hkey : u.key = k) : (finalize u).IsAbout k := by
  intro e he
  cases List.mem_singleton.1 he
  exact hkey

section
variable (settings : Settings) (now : Instant)

theorem isAbout_retain (hkey : u.key = k) (e : Option Execution) :
    (retain settings now u e).IsAbout k := by
  unfold retain
  split
  · split
    · exact (isAbout_finalize hkey).after hkey _
    · exact .of_nil rfl
  · exact .of_nil rfl

theorem isAbout_goOn (hkey : u.key = k) (e : Execution) : (goOn settings now u e).IsAbout k := by
  unfold goOn
  split
  · exact isAbout_retain settings now hkey _
  · exact .of_nil rfl

theorem isAbout_takeOver (hkey : u.key = k) (e : Execution) :
    (takeOver settings now u e).IsAbout k := by
  unfold takeOver
  split
  · next moved old hfollow =>
    have hmoved : moved.key = k :=
      (congrArg Metadata.key
        (WorkUnit.advance_of_advance? (advance?_of_follow hfollow)).metadata).trans hkey
    exact (isAbout_goOn settings now hmoved e).after hmoved _
  · next same hfollow =>
    cases eq_of_follow_none hfollow
    exact isAbout_goOn settings now hkey e

theorem isAbout_start (hkey : u.key = k) (e : Option Execution) :
    (start settings now u e).IsAbout k := by
  have hrecorded : (recordExecution now u.key u).1.key = k :=
    (congrArg Metadata.key (metadata_recordExecution now u.key u)).trans hkey
  exact (isAbout_takeOver settings now hrecorded _).after hkey _

theorem isAbout_passOver (hkey : u.key = k) (e : Option Execution) :
    (passOver settings now u e).IsAbout k := by
  unfold passOver
  split
  · exact isAbout_retain settings now hkey e
  · split
    · exact isAbout_start settings now hkey e
    · split
      · exact (isAbout_finalize hkey).after hkey _
      · exact isAbout_takeOver settings now hkey _

theorem isAbout_pass {site : Site} (hkey : ∀ u, site.unit = some u → u.key = k) :
    (pass settings now site).IsAbout k := by
  unfold pass
  split
  · exact .of_nil rfl
  · next u hunit =>
    split
    · exact isAbout_finalize (hkey u hunit)
    · refine isAbout_passOver settings now (Eq.trans ?_ (hkey u hunit)) _
      unfold guard
      split
      · rfl
      · exact Metadata.key_addFinalizer ..

end

end Visit
end Lifecycle
end CampaignControl
