import CampaignControl.Proofs.Admission.Ceiling
import CampaignControl.Proofs.Fleet.Rounds

/-!
# Drains

What a pass over a suspended campaign requests, one lemma for each function of the pass. It deletes
the live work units that the campaign owns (`Fleet.due_of_plan`): those that nothing holds go at
once and alone, the others are marked (`Fleet.Drained`). Then it reports on the campaign, which
stays as it is but for its status (`Fleet.Reported`). The pass has the store to itself here, and
nothing fails (`Fleet.pass_settles`).
-/

namespace CampaignControl
namespace Fleet

open Admission (campaignSlot)
open Lifecycle (unitSlot)

variable {s s' s₁ : Store} {key k : Key} {keys : List Key} {object unit : Object}
  {campaign : Campaign} {log : List Event} {repositories : List String}

/-! ## The drain -/

/-- What has become of an object whose deletion has been requested. -/
inductive Yields (o : Object) : Option Object → Prop where
  | gone : o.metadata.finalizers = [] → Yields o none
  | marked (time : Instant) (version : Nat) : o.metadata.finalizers ≠ [] →
    Yields o (some (o.marked time version))

/-- The deletion of the work units at some keys has been requested, and nothing else has
happened. -/
structure Drained (keys : List Key) (s s' : Store) : Prop where
  arises : Arises s'
  created_eq : s'.created = s.created
  yields : ∀ k ∈ keys, ∃ unit, s.find? (unitSlot k) = some unit ∧
    Yields unit (s'.find? (unitSlot k))
  others : ∀ slot, (∀ k ∈ keys, slot ≠ unitSlot k) → s'.find? slot = s.find? slot

namespace Drained

theorem nil (hs : Arises s) : Drained [] s s where
  arises := hs
  created_eq := rfl
  yields _ hk := absurd hk List.not_mem_nil
  others _ _ := rfl

theorem unit_of_not_mem (h : Drained keys s s') (hk : k ∉ keys) :
    s'.find? (unitSlot k) = s.find? (unitSlot k) := by
  apply h.others
  rintro k' hk' heq
  cases heq
  exact hk hk'

theorem unit_of_ne (h : Drained [k] s s') {k' : Key} (hne : k' ≠ k) :
    s'.find? (unitSlot k') = s.find? (unitSlot k') :=
  h.unit_of_not_mem (mt List.mem_singleton.1 hne)

theorem cons (h : Drained [k] s s₁) (h' : Drained keys s₁ s') (hnew : k ∉ keys) :
    Drained (k :: keys) s s' where
  arises := h'.arises
  created_eq := h'.created_eq.trans h.created_eq
  yields k' hk' := by
    rcases List.mem_cons.1 hk' with rfl | hk'
    · obtain ⟨unit, found, hyields⟩ := h.yields k' List.mem_cons_self
      rw [← h'.unit_of_not_mem hnew] at hyields
      exact ⟨unit, found, hyields⟩
    · obtain ⟨unit, found, hyields⟩ := h'.yields k' hk'
      have hne : k' ≠ k := fun hsame => hnew (hsame ▸ hk')
      exact ⟨unit, (h.unit_of_ne hne).symm.trans found, hyields⟩
  others slot hslot := by
    rw [h'.others slot fun k' hk' => hslot k' (List.mem_cons_of_mem _ hk'),
      h.others slot fun k' hk' => ?_]
    cases List.mem_singleton.1 hk'
    exact hslot _ List.mem_cons_self

end Drained

/-- The deletion of a work unit: it goes alone, or it is marked. -/
theorem delete_unit (hs : Arises s) (found : s.find? (unitSlot k) = some unit)
    (hstays : unit.metadata.isDeleting = false) (now : Instant) :
    ∃ s', s.delete now .workUnit k .background = (.ok (), s') ∧ Drained [k] s s' := by
  have harises := hs.outside (r := .delete .workUnit k .background) trivial now
  have hcreated := (Store.delete_deletions now .workUnit k .background s).created_eq
  have hdrained : ∀ s', s.delete now .workUnit k .background = (.ok (), s') →
      Yields unit (s'.find? (unitSlot k)) →
      (∀ slot, slot ≠ unitSlot k → s'.find? slot = s.find? slot) → Drained [k] s s' := by
    intro s' hdelete hyields hothers
    simp only [Store.serve, hdelete] at harises hcreated
    refine ⟨harises, hcreated, fun k' hk' => ?_,
      fun slot hslot => hothers slot (hslot k List.mem_cons_self)⟩
    cases List.mem_singleton.1 hk'
    exact ⟨unit, found, hyields⟩
  have hkind : (unitSlot k).kind ≠ .campaign := by
    intro h
    cases h
  by_cases hfin : unit.metadata.finalizers = []
  · obtain ⟨s', hdelete, hgone, hothers⟩ := Store.delete_alone hs.regular.sound found hfin
      (fun _ _ hother => hs.regular.free_owns_nothing found hfin hkind hother) now
    exact ⟨s', hdelete, hdrained s' hdelete (hgone ▸ .gone hfin) hothers⟩
  · obtain ⟨s', hdelete, hmarked, hothers⟩ := Store.delete_held found hfin hstays now .background
    exact ⟨s', hdelete, hdrained s' hdelete (hmarked ▸ .marked now _ hfin) hothers⟩

/-- What is made known of a work unit that is drained. -/
def drainNotice (campaign : Campaign) (k : Key) : Event where
  correlation := .nil
  entity := k
  campaign := campaign.key
  payload := .drainRequested

theorem drainAll_settles (correlation : Uid) {post : Unit → List Event → Store → Prop}
    (hs : Arises s) (hnodup : keys.Nodup)
    (hkeys : ∀ k ∈ keys, ∃ unit, s.find? (unitSlot k) = some unit ∧
      unit.metadata.isDeleting = false)
    (h : ∀ {s'}, Drained keys s s' → post () (log ++ keys.map (drainNotice campaign)) s') :
    (Admission.drainAll campaign correlation keys).Settles (.alone repositories) post log s := by
  induction keys generalizing s log with
  | nil =>
    refine Pass.Settles.pure ?_
    rintro s₁ rfl
    have hpost := h (.nil hs)
    rwa [List.map_nil, List.append_nil] at hpost
  | cons k rest ih =>
    obtain ⟨hnew, hnodup⟩ := List.nodup_cons.1 hnodup
    unfold Admission.drainAll
    apply Pass.Settles.bind
    refine Pass.Settles.delete fun {s₁ s₂ reply} now hsame hdelete _ => ⟨trivial, ?_⟩
    obtain rfl : s₁ = s := hsame
    obtain ⟨unit, found, hstays⟩ := hkeys k List.mem_cons_self
    obtain ⟨s', hdelete', hdrained⟩ := delete_unit hs found hstays now
    cases hdelete'.symm.trans hdelete
    rintro s₃ rfl
    apply Pass.Settles.bind
    apply Pass.Settles.publish
    rintro s₄ rfl
    refine ih hdrained.arises hnodup (fun k' hk' => ?_) fun {s'} hrest => ?_
    · obtain ⟨unit, found, hstays⟩ := hkeys k' (List.mem_cons_of_mem _ hk')
      have hne : k' ≠ k := fun hsame => hnew (hsame ▸ hk')
      exact ⟨unit, (hdrained.unit_of_ne hne).trans found, hstays⟩
    · have hpost := h (hdrained.cons hrest hnew)
      rw [List.map_cons, List.append_cons] at hpost
      exact hpost

/-! ## What is drained -/

/-- A live work unit of a campaign. -/
structure Works (campaign : Object) (s : Store) (k : Key) (unit : Object) : Prop where
  found : s.find? (unitSlot k) = some unit
  owned : campaign.Owns unit
  live : unit.isLiveUnit

/-- The keys of the live work units that are not to be deleted yet, each of them once. -/
structure Due (campaign : Object) (s : Store) (keys : List Key) : Prop where
  nodup : keys.Nodup
  mem_iff : ∀ k, k ∈ keys ↔ ∃ unit, Works campaign s k unit ∧ unit.metadata.isDeleting = false

/-- A suspended campaign is stored at a key. -/
structure Suspended (s : Store) (key : Key) (object : Object) (campaign : Campaign) : Prop where
  found : s.find? (campaignSlot key) = some object
  decode : Resource.decode object = .ok campaign
  suspended : campaign.spec.suspended

namespace Suspended

variable (h : Suspended s key object campaign)
include h

theorem key_eq (hs : s.Sound) : campaign.key = key :=
  (Resource.key_of_decode h.decode).trans (hs.key_eq h.found)

theorem metadata_eq : campaign.metadata = object.metadata := Resource.metadata_of_decode h.decode

theorem found? (hsame : s₁ = s) : Pass.found? (s₁.get .campaign key) = .ok (some campaign) := by
  rw [hsame, Store.get, h.found]
  simp only [Pass.found?, h.decode]

theorem of_find?_eq (hsame : s'.find? (campaignSlot key) = s.find? (campaignSlot key)) :
    Suspended s' key object campaign := { h with found := hsame.trans h.found }

end Suspended

section
variable (hs : Regular s)
include hs

/-- Work units can be listed. -/
theorem exists_units (filter : Filter) : ∃ units : List WorkUnit,
    (s.list .workUnit filter).mapM Resource.decode = .ok units := by
  refine exists_mapM fun o ho => ?_
  obtain ⟨hfind, -⟩ := (Store.mem_list_iff hs.sound).1 ho
  obtain ⟨u, rfl, -⟩ := hs.exists_unit hfind
  exact ⟨u, Resource.decode_encode u⟩

variable (h : Suspended s key object campaign)
include h

/-- The filter selects what the campaign owns. -/
theorem selects_iff (hunit : s.find? (unitSlot k) = some unit) :
    (Admission.unitFilter campaign).selects unit.metadata ↔ object.Owns unit := by
  obtain ⟨n, -, hissued⟩ := hs.sound.issued h.found
  have hfilter : Admission.unitFilter campaign =
      { space := some key.space, owner := some (.issued n) } := by
    unfold Admission.unitFilter
    rw [h.metadata_eq, hissued, h.key_eq hs.sound]
  have hkey : unit.metadata.key = k := hs.sound.key_eq hunit
  rw [hfilter]
  simp only [Filter.selects, List.all_nil, Bool.and_true, Bool.and_eq_true, beq_iff_eq, hkey]
  constructor
  · exact fun hselects => ⟨_, hissued, hselects.2⟩
  · intro howns
    constructor
    · rcases hs.owns h.found hunit howns with ⟨-, -, hspace⟩ | ⟨k', hslot, -⟩
      · exact hspace
      · cases hslot
    · obtain ⟨uid, huid, howner⟩ := howns
      exact howner.trans (huid.symm.trans hissued)

/-- What a plan drains is due. -/
theorem due_of_plan {units : List WorkUnit} (now : Instant)
    (hunits : (s.list .workUnit (Admission.unitFilter campaign)).mapM Resource.decode = .ok units) :
    Due object s (Admission.plan campaign units [] now).drain := by
  rw [Admission.plan, if_pos h.suspended]
  have hnodup := Store.nodup_list hs.sound .workUnit (Admission.unitFilter campaign)
  rw [← map_key_of_mapM hunits] at hnodup
  refine ⟨hnodup.sublist (List.filter_sublist.map _), fun k => ?_⟩
  simp only [List.mem_map, List.mem_filter, Bool.and_eq_true, Bool.not_eq_true']
  constructor
  · rintro ⟨u, ⟨hmem, hlive, hstays⟩, rfl⟩
    obtain ⟨o, ho, hdecode⟩ := exists_of_mem_mapM hunits hmem
    obtain ⟨hfind, hselects⟩ := (Store.mem_list_iff hs.sound).1 ho
    have hmetadata : u.metadata = o.metadata := Resource.metadata_of_decode hdecode
    have hkey : u.key = o.key := Resource.key_of_decode hdecode
    rw [← hkey] at hfind
    refine ⟨o, ⟨hfind, (selects_iff hs h hfind).1 hselects, ?_⟩, hmetadata ▸ hstays⟩
    rw [Admission.isLiveUnit_of_decode hdecode, hlive]
  · rintro ⟨o, ⟨hfind, howns, hlive⟩, hstays⟩
    have hkey : o.key = k := hs.sound.key_eq hfind
    have hlisted : o ∈ s.list .workUnit (Admission.unitFilter campaign) :=
      (Store.mem_list_iff hs.sound).2 ⟨hkey ▸ hfind, (selects_iff hs h hfind).2 howns⟩
    obtain ⟨u, hmem, hdecode⟩ := exists_mem_of_mapM hunits hlisted
    have hmetadata : u.metadata = o.metadata := Resource.metadata_of_decode hdecode
    rw [Admission.isLiveUnit_of_decode hdecode] at hlive
    exact ⟨u, ⟨hmem, hlive, hmetadata ▸ hstays⟩, (Resource.key_of_decode hdecode).trans hkey⟩

end

/-! ## The pass -/

theorem drain_settles (hs : Arises s) (h : Suspended s key object campaign) (now : Instant)
    {units : List WorkUnit}
    (hunits : (s.list .workUnit (Admission.unitFilter campaign)).mapM Resource.decode = .ok units)
    (correlation : Uid) {post : Admission.Outcome → List Event → Store → Prop}
    (hpost : ∀ {keys s' outcome}, Due object s keys → Drained keys s s' →
      post outcome (log ++ keys.map (drainNotice campaign)) s') :
    (Admission.drain campaign correlation now units).Settles (.alone repositories) post log s := by
  have hdue := due_of_plan hs.regular h now hunits
  unfold Admission.drain
  apply Pass.Settles.bind
  apply drainAll_settles correlation hs hdue.nodup
  · intro k hk
    obtain ⟨unit, hworks, hstays⟩ := (hdue.mem_iff k).1 hk
    exact ⟨unit, hworks.found, hstays⟩
  intro s₁ hdrained
  apply Pass.Settles.bind
  apply Pass.Settles.measure
  rintro s₂ rfl
  refine Pass.Settles.pure ?_
  rintro s₃ rfl
  exact hpost hdue hdrained

/-- There may be a report on a campaign, which is still suspended. Nothing else has happened. -/
structure Reported (key : Key) (object : Object) (s s' : Store) : Prop where
  arises : Arises s'
  created_eq : s'.created = s.created
  others : ∀ slot, slot ≠ campaignSlot key → s'.find? slot = s.find? slot
  suspended : ∃ object' campaign', Suspended s' key object' campaign' ∧
    object'.metadata.uid = object.metadata.uid ∧ object'.metadata.isDeleting = false

section
variable (hs : Arises s) (h : Suspended s key object campaign)
  (hstays : object.metadata.isDeleting = false) (settings : Settings) (now : Instant)
include hs h hstays

/-- A campaign with another status is written. -/
theorem update_campaign (status : Campaign.Status) :
    ∃ (stored : Campaign) (s' : Store),
      s.update now .campaign (Resource.encode { campaign with status }) =
        (.ok (Resource.encode stored), s') ∧ Reported key object s s' := by
  let changed : Campaign := { campaign with status }
  let stored : Campaign :=
    Resource.setMetadata (s.revised object (Resource.encode changed)).metadata changed
  have hwritten := Store.update_of_held now h.found
    (show (Resource.encode changed).key = key from h.key_eq hs.regular.sound)
    (congrArg Metadata.version h.metadata_eq) fun hdel => by cases hstays.symm.trans hdel
  have harises := hs.outside (r := .update .campaign (Resource.encode changed))
    ⟨rfl, (congrArg Metadata.owner h.metadata_eq).trans (hs.campaign_owner h.found)⟩ now
  have hserve : (s.serve now (.update .campaign (Resource.encode changed))).2 =
      s.withRevised (campaignSlot key) object (Resource.encode changed) :=
    congrArg Prod.snd hwritten
  rw [hserve] at harises
  refine ⟨stored, _, hwritten, harises, rfl, fun slot hne => ?_, Resource.encode stored, stored,
    ⟨?_, Resource.decode_encode stored, h.suspended⟩, rfl, hstays⟩
  · exact (Store.find?_withRevised ..).trans (if_neg (Ne.symm hne))
  · exact (Store.find?_withRevised ..).trans (if_pos rfl)

theorem writeStatus_settles (outcome : Admission.Outcome) (admittedAt : Option Instant)
    {post : Unit → List Event → Store → Prop}
    (hpost : ∀ {s'}, Reported key object s s' → post () log s') :
    (Admission.writeStatus settings campaign now outcome admittedAt).Settles (.alone repositories)
      post log s := by
  unfold Admission.writeStatus Admission.modifyCampaign
  apply Pass.Settles.bind
  rw [h.key_eq hs.regular.sound]
  by_cases hsame : outcome.report admittedAt now campaign.status = campaign.status
  · apply Pass.Settles.modify_same h.found? (by dsimp only; rw [if_pos hsame])
    rintro s₁ rfl
    refine Pass.Settles.pure ?_
    rintro s₂ rfl
    exact hpost ⟨hs, rfl, fun _ _ => rfl, object, campaign, h, rfl, hstays⟩
  · apply Pass.Settles.modify_written h.found? (by dsimp only; rw [if_neg hsame])
    intro s₁ s₂ reply written hsame hupdate _
    obtain rfl : s₁ = s := hsame
    obtain ⟨stored, s', hupdate', hreported⟩ :=
      update_campaign hs h hstays written (outcome.report admittedAt now campaign.status)
    cases hupdate'.symm.trans hupdate
    refine ⟨trivial, stored, rfl, fun {s₃} hsame => Pass.Settles.pure fun {s₄} hsame' => ?_⟩
    obtain rfl : s₃ = s₂ := hsame
    obtain rfl : s₄ = s₃ := hsame'
    exact hpost hreported

theorem passOver_settles (correlation : Uid) {post : Action → List Event → Store → Prop}
    (hpost : ∀ {keys s₁ s'}, Due object s keys → Drained keys s s₁ → Reported key object s₁ s' →
      post (.afterSeconds settings.requeue.idle) (log ++ keys.map (drainNotice campaign)) s') :
    (Admission.passOver settings campaign correlation now).Settles (.alone repositories)
      post log s := by
  obtain ⟨units, hunits⟩ := exists_units hs.regular (Admission.unitFilter campaign)
  have hlist : ∀ {s₁ : Store}, s₁ = s →
      (s₁.list .workUnit (Admission.unitFilter campaign)).mapM Resource.decode = .ok units := by
    rintro s₁ rfl
    exact hunits
  unfold Admission.passOver
  apply Pass.Settles.bind
  apply Pass.Settles.list hlist
  rintro s₁ rfl
  rw [if_pos h.suspended]
  apply Pass.Settles.bind
  apply drain_settles hs h now hunits correlation
  intro keys s₂ outcome hdue hdrained
  apply Pass.Settles.bind
  have hcampaign : s₂.find? (campaignSlot key) = s₁.find? (campaignSlot key) :=
    hdrained.others _ fun _ _ => nofun
  apply writeStatus_settles hdrained.arises (h.of_find?_eq hcampaign) hstays
  intro s₃ hreported
  refine Pass.Settles.pure ?_
  rintro s₄ rfl
  exact hpost hdue hdrained hreported

/-- What a pass over a suspended campaign comes to. -/
theorem pass_settles : (Admission.pass settings key now).Settles (.alone repositories)
    (fun action log s' => action = .afterSeconds settings.requeue.idle ∧
      ∃ keys s₁, Due object s keys ∧ log = keys.map (drainNotice campaign) ∧ Drained keys s s₁ ∧
        Reported key object s₁ s')
    [] s := by
  unfold Admission.pass
  apply Pass.Settles.bind
  apply Pass.Settles.find? h.found?
  rintro s₁ rfl
  dsimp only
  rw [if_neg (by rw [h.metadata_eq, hstays]; exact Bool.false_ne_true)]
  apply Pass.Settles.bind
  apply Pass.Settles.correlate
  rintro s₂ correlation rfl
  apply passOver_settles hs h hstays settings now correlation
  intro keys s₃ s' hdue hdrained hreported
  exact ⟨rfl, keys, s₃, hdue, rfl, hdrained, hreported⟩

end

end Fleet
end CampaignControl
