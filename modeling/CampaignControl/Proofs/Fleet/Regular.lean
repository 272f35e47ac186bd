import CampaignControl.Proofs.Fleet
import CampaignControl.Proofs.Store.Propagation

/-!
# Stores of fleets

What the store of a fleet is like, whoever deletes what and in which way (`Fleet.openRules`): work
units and executions hold what has been encoded for them, nothing but the finalizer of the
controller holds a work unit, and an object is owned by the campaign of its namespace or by the work
unit at its key, if it has an owner at all (`Fleet.Regular`, `Fleet.regular`). So what goes with a
campaign are its work units and its configuration document, and what goes with a work unit is its
execution.
-/

namespace CampaignControl
namespace Fleet

open Admission (campaignSlot)
open Lifecycle (unitSlot executionSlot Bound)

/-- Where anybody may delete objects, and leave others without their owners. -/
def openRules : Rules repertoire := rulesFor IsOpen

instance : DecidablePred IsOpen
  | .get .. | .list .. | .delete .. => .isTrue trivial
  | .create kind object | .update kind object =>
    inferInstanceAs (Decidable (kind = .campaign ∧ object.metadata.owner = none))

instance : DecidablePred openRules.outside := inferInstanceAs (DecidablePred IsOpen)

instance : DecidableRel openRules.excludes :=
  inferInstanceAs (DecidableRel (rules (fun _ => True) True).excludes)

instance : DecidablePred openRules.during := fun _ => .isTrue trivial

variable {w w' : World repertoire} {slot : Slot} {o o' : Object} {s s' : Store} {k : Key}

/-! ## What is stored where -/

/-- What the passes put into a slot. Campaigns are as their users want them. -/
structure Shaped (slot : Slot) (o : Object) : Prop where
  document : slot.kind = .configDocument → o.metadata.finalizers = []
  unit : slot.kind = .workUnit → (∃ u : WorkUnit, o.body = Resource.body u) ∧
    ∀ f ∈ o.metadata.finalizers, f = WorkUnit.finalizer
  execution : slot.kind = .execution → ∃ e : Execution, o.body = Resource.body e

/-- The owner of the object in a slot has been met as what it has to be. -/
inductive Belongs (w : World repertoire) : Slot → Owner → Prop where
  | campaign {slot : Slot} {key : Key} {owner : Owner} :
    slot.kind = .configDocument ∨ slot.kind = .workUnit → slot.key.space = key.space →
    w.Met (campaignSlot key) owner.uid → Belongs w slot owner
  | unit {key : Key} {owner : Owner} : w.Met (unitSlot key) owner.uid →
    Belongs w (executionSlot key) owner

/-- What is stored in a slot has its shape and its owner. -/
structure Placed (w : World repertoire) (slot : Slot) (o : Object) : Prop where
  shaped : Shaped slot o
  belongs : ∀ owner, o.metadata.owner = some owner → Belongs w slot owner

theorem Shaped.of_campaign (h : slot.kind = .campaign) : Shaped slot o := by
  constructor <;> intro hkind <;> cases h.symm.trans hkind

theorem Shaped.of_same (h : Shaped slot o) (hbody : o'.body = o.body)
    (hfin : o'.metadata.finalizers = o.metadata.finalizers) : Shaped slot o' := by
  constructor
  · rw [hfin]
    exact h.document
  · rw [hbody, hfin]
    exact h.unit
  · rw [hbody]
    exact h.execution

theorem Belongs.move {owner : Owner} (h : Belongs w slot owner) {rules : Rules repertoire}
    (hmove : rules.Move w w') : Belongs w' slot owner := by
  cases h with
  | campaign hkind hspace hmet => exact .campaign hkind hspace (hmet.move hmove)
  | unit hmet => exact .unit (hmet.move hmove)

theorem Placed.move (h : Placed w slot o) {rules : Rules repertoire} (hmove : rules.Move w w') :
    Placed w' slot o :=
  ⟨h.shaped, fun owner howner => (h.belongs owner howner).move hmove⟩

theorem Placed.fades (h : Placed w slot o) (hfades : o.Fades o') : Placed w slot o' := by
  refine ⟨h.shaped.of_same hfades.body hfades.finalizers, fun owner howner => ?_⟩
  rcases hfades.owner with heq | heq
  · exact h.belongs owner (heq ▸ howner)
  · cases heq.symm.trans howner

/-- What is replaced by something with the same metadata keeps its place, if it is not a work unit
or an execution. -/
theorem Placed.of_metadata (h : Placed w slot o) (howner' : o'.metadata.owner = o.metadata.owner)
    (hfin : o'.metadata.finalizers = o.metadata.finalizers)
    (hkind : slot.kind = .campaign ∨ slot.kind = .configDocument) : Placed w slot o' where
  shaped := by
    constructor
    · rw [hfin]
      exact h.shaped.document
    · intro heq
      rcases hkind with hkind | hkind <;> cases hkind.symm.trans heq
    · intro heq
      rcases hkind with hkind | hkind <;> cases hkind.symm.trans heq
  belongs owner howner := h.belongs owner (howner' ▸ howner)

/-- What a request creates has its place. -/
theorem Requester.placed_newborn {kind : Kind} {object : Object}
    (h : Requester IsOpen w (.create kind object)) (now : Instant) :
    Placed w { kind, key := object.key } (w.store.newborn now object) := by
  cases h with
  | admission ht hpast hasks =>
    cases hasks with
    | @createDocument campaign batches hknows =>
      refine ⟨⟨fun _ => rfl, nofun, nofun⟩, fun owner howner => ?_⟩
      obtain ⟨owner', howner', -, hmet⟩ := exists_asOwner ht hpast hknows Kind.campaign.name
      cases howner'.symm.trans howner
      obtain ⟨rfl, -⟩ := hknows
      exact @Belongs.campaign w _ campaign.key _ (.inl rfl) rfl hmet
    | @createUnit campaign batches index batch created hknows =>
      refine ⟨⟨nofun, fun _ => ⟨⟨_, rfl⟩, nofun⟩, nofun⟩, fun owner howner => ?_⟩
      obtain ⟨owner', howner', -, hmet⟩ := exists_asOwner ht hpast hknows Kind.campaign.name
      cases howner'.symm.trans howner
      obtain ⟨rfl, -⟩ := hknows
      exact @Belongs.campaign w _ campaign.key _ (.inr rfl) rfl hmet
  | lifecycle ht hpast hasks =>
    cases hasks with
    | @create u hknown =>
      refine ⟨⟨nofun, nofun, fun _ => ⟨u.toExecution, rfl⟩⟩, fun owner howner => ?_⟩
      obtain ⟨e, he, o, hfind, huid⟩ := hknown
      obtain ⟨uid, huid', rfl⟩ := Option.map_eq_some_iff.1 howner
      exact .unit ⟨_, ht, e, he, o, hfind, huid.trans huid'⟩
  | substrate _ _ hasks => cases hasks
  | outside hopen =>
    obtain ⟨rfl, howner⟩ := hopen
    exact ⟨.of_campaign rfl, fun owner h => by cases howner.symm.trans h⟩

/-- An execution that is replaced keeps its metadata. -/
theorem Requester.metadata_eq {object old : Object}
    (h : Requester IsOpen w (.update .execution object))
    (hold : w.store.find? (executionSlot object.key) = some old)
    (hv : object.metadata.version = old.metadata.version) :
    object.metadata = old.metadata ∧ ∃ e : Execution, object = Resource.encode e := by
  cases h with
  | admission _ _ hasks | lifecycle _ _ hasks => cases hasks
  | substrate _ hpast hasks =>
    cases hasks with
    | @change k s o current status hread hdecode =>
      have hmetadata : current.metadata = o.metadata := Resource.metadata_of_decode hdecode
      cases (hpast _ hread).eq_of_write (congrArg Metadata.key hmetadata)
        (congrArg Metadata.version hmetadata) hold hv
      exact ⟨hmetadata, _, rfl⟩
  | outside hopen => cases hopen.1

/-- What a request replaces keeps its place. -/
theorem Requester.placed_revised {kind : Kind} {object old : Object}
    (h : Requester IsOpen w (.update kind object))
    (hold : w.store.find? { kind, key := object.key } = some old)
    (hv : object.metadata.version = old.metadata.version)
    (hplaced : Placed w { kind, key := object.key } old) :
    Placed w { kind, key := object.key } (w.store.revised old object) := by
  cases h with
  | admission _ hpast hasks =>
    have hmetadata := hasks.metadata_eq hpast hold hv
    have howner : object.metadata.owner = old.metadata.owner := congrArg Metadata.owner hmetadata
    have hfin : object.metadata.finalizers = old.metadata.finalizers :=
      congrArg Metadata.finalizers hmetadata
    refine hplaced.of_metadata howner hfin ?_
    cases hasks with
    | refresh => exact .inr rfl
    | report => exact .inl rfl
  | lifecycle _ hpast hasks =>
    obtain ⟨rfl, current, changed, hdecode, hretains, -, rfl⟩ := hasks.exists_stored hpast hold hv
    have hmetadata : current.metadata = old.metadata := Resource.metadata_of_decode hdecode
    refine ⟨⟨nofun, fun _ => ⟨⟨changed, rfl⟩, fun f hf => ?_⟩, nofun⟩, fun owner howner => ?_⟩
    · rcases hretains.finalizers f hf with hf | rfl
      · exact (hplaced.shaped.unit rfl).2 f (hmetadata ▸ hf)
      · rfl
    · exact hplaced.belongs owner (hmetadata ▸ hretains.owner.symm.trans howner)
  | substrate ht hpast hasks =>
    obtain rfl : kind = .execution := by
      cases hasks
      rfl
    obtain ⟨hmetadata, e, rfl⟩ := (Requester.substrate ht hpast hasks).metadata_eq hold hv
    refine ⟨⟨nofun, nofun, fun _ => ⟨e, rfl⟩⟩, fun owner howner => ?_⟩
    exact hplaced.belongs owner (hmetadata ▸ howner)
  | outside hopen =>
    obtain ⟨rfl, howner⟩ := hopen
    exact ⟨.of_campaign rfl, fun owner h => by cases howner.symm.trans h⟩

/-! ## In every world -/

theorem placed (hw : openRules.Reachable w) :
    ∀ slot o, w.store.find? slot = some o → Placed w slot o := by
  apply hw.induct (P := fun w => ∀ slot o, w.store.find? slot = some o → Placed w slot o)
  · intro _ slot o found
    cases found
  · intro w w' hw ih hstep slot o found
    apply Placed.move (w := w) _ hstep.move
    rcases hw.steps.outcome program_heeds .empty hstep.move with hsame | ⟨r, hr, hout⟩
    · exact ih slot o (hsame ▸ found)
    · have hrequester := exists_requester hr
      cases hout.origin found with
      | faded hold hfades => exact (ih slot _ hold).fades hfades
      | @created object now heq hkey =>
        subst heq
        have hnew := hrequester.placed_newborn now
        rwa [hkey] at hnew
      | @revised old object heq hkey hv hold =>
        subst heq
        have hslot : ({ kind := slot.kind, key := object.key } : Slot) = slot := by rw [hkey]
        have hrevised :=
          hrequester.placed_revised (hslot.symm ▸ hold) hv (hslot.symm ▸ ih slot old hold)
        rwa [hslot] at hrevised

/-- The owner of an object is a campaign or the work unit at its key. -/
theorem owns_cases (hw : openRules.Reachable w) {other : Slot}
    (found : w.store.find? slot = some o) (found' : w.store.find? other = some o')
    (howns : o.Owns o') :
    slot.kind = .campaign ∧ (other.kind = .configDocument ∨ other.kind = .workUnit) ∧
      other.key.space = slot.key.space ∨
    ∃ key, slot = unitSlot key ∧ other = executionSlot key := by
  obtain ⟨uid, huid, howner⟩ := howns
  obtain ⟨owner, hsome, rfl⟩ := Option.map_eq_some_iff.1 howner
  cases (placed hw other o' found').belongs owner hsome with
  | campaign hkind hspace hmet =>
    cases hw.steps.slot_eq .empty hmet found huid
    exact .inl ⟨rfl, hkind, hspace⟩
  | unit hmet =>
    cases hw.steps.slot_eq .empty hmet found huid
    exact .inr ⟨_, rfl, rfl⟩

/-- Nobody owns a campaign. -/
theorem campaign_owner (hw : openRules.Reachable w)
    (found : w.store.find? (campaignSlot k) = some o) : o.metadata.owner = none := by
  cases howner : o.metadata.owner with
  | none => rfl
  | some owner =>
    cases (placed hw _ o found).belongs owner howner with
    | campaign hkind => rcases hkind with hkind | hkind <;> cases hkind

theorem bound (hw : openRules.Reachable w) : Bound w.store :=
  ((bound_upheld fun _ h => h).holds hw).1

/-- No object is left without its owner that an execution belongs to: the work unit at its key has
the finalizer, and is not removed at once. -/
theorem not_owns_execution (hw : openRules.Reachable w) (found : w.store.find? slot = some o)
    (hfin : o.metadata.finalizers = []) (hfind : w.store.find? (executionSlot k) = some o') :
    ¬ o.Owns o' := by
  intro howns
  rcases owns_cases hw found hfind howns with ⟨-, hkind | hkind, -⟩ | ⟨key, rfl, hslot⟩
  · cases hkind
  · cases hkind
  · cases hslot
    obtain ⟨-, held, hheld, hguarded⟩ := (bound hw).custody.guarded hfind
    cases found.symm.trans hheld
    exact Metadata.ne_nil_of_hasFinalizer hguarded hfin

/-- Where objects are left without their owner, executions are not among them. -/
theorem find?_execution_of_left (hw : openRules.Reachable w) (now : Instant)
    (found : w.store.find? slot = some o) (hfin : o.metadata.finalizers = [])
    (hleft : (w.store.advance.remove now .orphan slot).find? (executionSlot k) = some o') :
    w.store.find? (executionSlot k) = some o' := by
  have hsound : w.store.advance.Sound := hw.sound.edits (.single (.deletion .advance))
  have found' : w.store.advance.find? slot = some o := found
  obtain ⟨e, hfind, -⟩ := (Store.remove_deletions now .orphan found' hfin).fades_of_find? hleft
  have hne : executionSlot k ≠ slot := by
    rintro rfl
    cases (Store.honours_of_orphan hsound found' now).gone.symm.trans hleft
  have hsame := Store.find?_remove_orphan hsound found' now hne hfind
    (not_owns_execution hw found hfin hfind)
  cases hsame.symm.trans hleft
  exact hfind

/-- A request leaves no execution without an owner. -/
theorem Requester.exists_owner (hw : openRules.Reachable w) {r : StoreRequest}
    (h : Requester IsOpen w r) (hout : w.store.Outcome r s')
    (ih : ∀ k e, w.store.find? (executionSlot k) = some e → ∃ owner, e.metadata.owner = some owner)
    (found : s'.find? (executionSlot k) = some o') : ∃ owner, o'.metadata.owner = some owner := by
  by_cases horphan : ∃ kind key, r = .delete kind key .orphan
  · obtain ⟨kind, key, rfl⟩ := horphan
    cases hout with
    | idle hsame => exact ih k o' ((hsame _).symm.trans found)
    | @mark _ _ _ x _ time version hold hfin hmarked hother =>
      by_cases heq : { kind, key } = executionSlot k
      · rw [heq] at hold hmarked
        cases hmarked.symm.trans found
        exact ih k x hold
      · exact ih k o' ((hother _ heq).symm.trans found)
    | remove hnot => exact absurd rfl hnot
    | @leave _ _ x now hold hfin =>
      exact ih k o' (find?_execution_of_left hw now hold hfin found)
  · have hnot : ∀ kind key, r ≠ .delete kind key .orphan :=
      fun kind key h => horphan ⟨kind, key, h⟩
    cases hout.source hnot found with
    | same hold => exact ih k o' hold
    | @marked x time version hold => exact ih k x hold
    | @created object now heq hkey =>
      subst heq
      cases h with
      | admission _ _ hasks => cases hasks
      | lifecycle ht hpast hasks =>
        cases hasks with
        | @create u hknown =>
          obtain ⟨e, he, o, hfind, huid⟩ := hknown
          obtain ⟨n, -, hissued⟩ := (hpast e he).sound.issued hfind
          exact ⟨⟨Kind.workUnit.name, u.key.name, .issued n⟩, by
            show u.metadata.asOwner Kind.workUnit.name = _
            rw [Metadata.asOwner, ← huid, hissued]
            rfl⟩
      | substrate _ _ hasks => cases hasks
      | outside hopen => cases hopen.1
    | @revised old object heq hkey hv hold =>
      subst heq
      have hslot : executionSlot object.key = executionSlot k := congrArg executionSlot hkey
      obtain ⟨owner, howner⟩ := ih k old hold
      exact ⟨owner, (congrArg Metadata.owner (h.metadata_eq (hslot ▸ hold) hv).1).trans howner⟩

/-- Executions have owners. -/
theorem exists_owner (hw : openRules.Reachable w) :
    ∀ k e, w.store.find? (executionSlot k) = some e → ∃ owner, e.metadata.owner = some owner := by
  apply hw.induct (P := fun w => ∀ k e, w.store.find? (executionSlot k) = some e →
    ∃ owner, e.metadata.owner = some owner)
  · intro _ k e found
    cases found
  · intro w w' hw ih hstep k e found
    rcases hw.steps.outcome program_heeds .empty hstep.move with hsame | ⟨r, hr, hout⟩
    · exact ih k e (hsame ▸ found)
    · exact (exists_requester hr).exists_owner hw hout ih found

/-- What the store of a fleet is like. -/
structure Regular (s : Store) : Prop where
  reached : s.Reached
  bound : Bound s
  shaped : ∀ {slot o}, s.find? slot = some o → Shaped slot o
  /-- Who owns what. -/
  owns : ∀ {slot other o o'}, s.find? slot = some o → s.find? other = some o' → o.Owns o' →
    slot.kind = .campaign ∧ (other.kind = .configDocument ∨ other.kind = .workUnit) ∧
      other.key.space = slot.key.space ∨
    ∃ key, slot = unitSlot key ∧ other = executionSlot key
  owner : ∀ {k e}, s.find? (executionSlot k) = some e → ∃ owner, e.metadata.owner = some owner

/-- **The store of a fleet is regular**, whatever is deleted in which way. -/
theorem regular (hw : openRules.Reachable w) : Regular w.store where
  reached := hw.steps.reached ⟨[], rfl⟩
  bound := bound hw
  shaped found := (placed hw _ _ found).shaped
  owns found found' howns := owns_cases hw found found' howns
  owner := exists_owner hw _ _

/-! ## Regular stores -/

namespace Regular

variable (hs : Regular s)
include hs

theorem sound : s.Sound := hs.reached.intact.toSound

/-- A work unit is stored as it is encoded. -/
theorem exists_unit (found : s.find? (unitSlot k) = some o) :
    ∃ u : WorkUnit, o = Resource.encode u ∧ u.key = k ∧
      (∀ key, u.status.execution = some key → key = k) ∧
      (∀ f ∈ u.metadata.finalizers, f = WorkUnit.finalizer) ∧
      (u.metadata.isDeleting → u.metadata.hasFinalizer WorkUnit.finalizer) := by
  obtain ⟨⟨body, hbody⟩, hfin⟩ := (hs.shaped found).unit rfl
  have hdecode : Resource.decode o = .ok (Resource.setMetadata o.metadata body) := by
    have hstored := Resource.decode_stored o.metadata body
    rwa [← hbody] at hstored
  have hkey := hs.sound.key_eq found
  refine ⟨{ body with metadata := o.metadata }, ?_, hkey, fun key hkey' => ?_, hfin, fun hdel => ?_⟩
  · exact congrArg (Object.mk o.metadata) hbody
  · obtain ⟨u, hu, -, hrecord⟩ := hs.bound.custody.record found
    cases hdecode.symm.trans hu
    exact (hrecord key hkey').trans hkey
  · obtain ⟨f, hf⟩ := List.exists_mem_of_ne_nil _ (hs.reached.intact.held _ _ found hdel)
    exact List.contains_iff_mem.2 (hfin f hf ▸ hf)

/-- An execution is stored as it is encoded. -/
theorem exists_execution (found : s.find? (executionSlot k) = some o) :
    ∃ e : Execution, o = Resource.encode e ∧ e.key = k ∧ e.metadata.finalizers = [] := by
  obtain ⟨body, hbody⟩ := (hs.shaped found).execution rfl
  exact ⟨{ body with metadata := o.metadata }, congrArg (Object.mk o.metadata) hbody,
    hs.sound.key_eq found, (hs.bound.custody.guarded found).1⟩

/-- An execution owns nothing. -/
theorem execution_owns_nothing (found : s.find? (executionSlot k) = some o) {other : Slot}
    (hother : s.find? other = some o') : ¬ o.Owns o' := by
  intro howns
  rcases hs.owns found hother howns with ⟨hkind, -⟩ | ⟨key, hslot, -⟩
  · cases hkind
  · cases hslot

/-- A work unit without an execution owns nothing. -/
theorem unit_owns_nothing (found : s.find? (unitSlot k) = some o)
    (hnone : s.find? (executionSlot k) = none) {other : Slot} (hother : s.find? other = some o') :
    ¬ o.Owns o' := by
  intro howns
  rcases hs.owns found hother howns with ⟨hkind, -⟩ | ⟨key, hslot, rfl⟩
  · cases hkind
  · cases hslot
    cases hnone.symm.trans hother

/-- An execution is owned by the work unit at its key. -/
theorem unit_owns (found : s.find? (executionSlot k) = some o) :
    ∃ unit, s.find? (unitSlot k) = some unit ∧ unit.Owns o := by
  obtain ⟨-, unit, hunit, -⟩ := hs.bound.custody.guarded found
  obtain ⟨owner, howner⟩ := hs.owner found
  exact ⟨unit, hunit, owner.uid, hs.bound.owner found hunit howner, by rw [howner]; rfl⟩

/-- There is no execution of a work unit that is not guarded. -/
theorem find?_execution (found : s.find? (unitSlot k) = some o)
    (hfree : o.metadata.hasFinalizer WorkUnit.finalizer = false) :
    s.find? (executionSlot k) = none := by
  cases hfind : s.find? (executionSlot k) with
  | none => rfl
  | some execution =>
    obtain ⟨-, held, hheld, hguarded⟩ := hs.bound.custody.guarded hfind
    cases found.symm.trans hheld
    cases hfree.symm.trans hguarded

/-- What nothing holds owns nothing, unless it is a campaign. -/
theorem free_owns_nothing (found : s.find? slot = some o)
    (hfin : o.metadata.finalizers = []) (hslot : slot.kind ≠ .campaign)
    {other : Slot} (hother : s.find? other = some o') : ¬ o.Owns o' := by
  intro howns
  rcases hs.owns found hother howns with ⟨hkind, -⟩ | ⟨k, rfl, rfl⟩
  · exact hslot hkind
  · have hfree : o.metadata.hasFinalizer WorkUnit.finalizer = false := by
      rw [Metadata.hasFinalizer, hfin]
      rfl
    cases (hs.find?_execution found hfree).symm.trans hother

end Regular
end Fleet
end CampaignControl
