import CampaignControl.Proofs.Fleet.Rounds

/-!
# The teardown of a campaign

What a campaign without finalizers takes with it when it is deleted: its configuration document and
its work units, at once as far as nothing holds them. The work units that the finalizer holds are
marked, and one pass over each of them finishes the teardown (`Fleet.teardown_completes`).
Everything else is left alone.
-/

namespace CampaignControl
namespace Fleet

open Admission (campaignSlot)
open Lifecycle (unitSlot executionSlot Call calls beside)
open Rules (inTurn)

variable {s s' : Store} {key k : Key} {campaign o o' : Object} {slot other : Slot}

/-! ## What goes with a campaign -/

/-- What is left is owned by what has owned it before. -/
theorem exists_owned {root : Slot} {x : Object} (hcascaded : s.Cascaded root s')
    (hother : s'.find? other = some o') (howns : x.Owns o') :
    ∃ o, s.find? other = some o ∧ x.Owns o := by
  obtain ⟨o, hold, -⟩ := hcascaded.find?_cases hother
  obtain ⟨uid, huid, howner⟩ := howns
  exact ⟨o, hold, uid, huid, hcascaded.owner_eq hold hother ▸ howner⟩

/-- What is still owned by an object that has gone is held. -/
theorem exists_held (found : s.find? slot = some o) (hcascaded : s.Cascaded slot s')
    (hother : s'.find? other = some o') (howns : o.Owns o') :
    ∃ old, s.find? other = some old ∧ o.Owns old ∧ old.metadata.finalizers ≠ [] := by
  obtain ⟨old, hold, howns'⟩ := exists_owned hcascaded hother howns
  refine ⟨old, hold, howns', fun hfin => ?_⟩
  have hgone : s'.find? other = none :=
    (hcascaded.find?_eq_none_iff other).2 (.inr (.owned .root found hold hfin howns'))
  cases hgone.symm.trans hother

section
variable (hs : Regular s) (found : s.find? (campaignSlot key) = some campaign)
include hs found

/-- A campaign owns configuration documents, and work units. -/
theorem Regular.campaign_owns (hother : s.find? other = some o) (howns : campaign.Owns o) :
    other.kind = .configDocument ∨ other.kind = .workUnit := by
  rcases hs.owns found hother howns with ⟨-, hkind, -⟩ | ⟨k, hslot, -⟩
  · exact hkind
  · cases hslot

theorem Regular.owned_owns_nothing (hother : s.find? other = some o) (howns : campaign.Owns o)
    (hfin : o.metadata.finalizers = []) (hfind : s.find? slot = some o') : ¬ o.Owns o' := by
  refine hs.free_owns_nothing hother hfin ?_ hfind
  rcases hs.campaign_owns found hother howns with hkind | hkind <;> rw [hkind] <;> nofun

/-- What goes with a campaign is owned by it and not held. -/
theorem Regular.doomed_cases (h : s.Doomed (campaignSlot key) slot) :
    slot = campaignSlot key ∨
      ∃ o, s.find? slot = some o ∧ campaign.Owns o ∧ o.metadata.finalizers = [] := by
  induction h with
  | root => exact .inl rfl
  | owned _ howner hother hfin howns ih =>
    rcases ih with rfl | ⟨o₁, howner₁, howns₁, hfin₁⟩
    · cases howner.symm.trans found
      exact .inr ⟨_, hother, howns, hfin⟩
    · cases howner.symm.trans howner₁
      exact absurd howns (hs.owned_owns_nothing found howner howns₁ hfin₁ hother)

/-- What a campaign leaves without an owner is its own. -/
theorem Regular.owns_of_bereft (hother : s.find? other = some o)
    (h : s.Bereft (campaignSlot key) o) : campaign.Owns o := by
  obtain ⟨slot, owner, hdoomed, howner, howns⟩ := h
  rcases hs.doomed_cases found hdoomed with rfl | ⟨o₁, howner₁, howns₁, hfin₁⟩
  · cases howner.symm.trans found
    exact howns
  · cases howner.symm.trans howner₁
    exact absurd howns (hs.owned_owns_nothing found howner howns₁ hfin₁ hother)

variable (hcascaded : s.Cascaded (campaignSlot key) s')
include hcascaded

/-- What the campaign does not own is left alone. -/
theorem Regular.spared (hother : s.find? other = some o) (hne : other ≠ campaignSlot key)
    (hnot : ¬ campaign.Owns o) : s'.find? other = some o := by
  refine hcascaded.unchanged other o hother (fun hdoomed => ?_)
    (.inl fun hbereft => hnot (hs.owns_of_bereft found hother hbereft))
  rcases hs.doomed_cases found hdoomed with heq | ⟨o₁, hother₁, howns, -⟩
  · exact hne heq
  · cases hother.symm.trans hother₁
    exact hnot howns

/-- What the campaign still owns is a work unit that is to be deleted. -/
theorem Regular.owned_left (hother : s'.find? other = some o) (howns : campaign.Owns o) :
    (∃ k, other = unitSlot k) ∧ o.metadata.isDeleting := by
  obtain ⟨old, hold, howns', hheld⟩ := exists_held found hcascaded hother howns
  obtain ⟨old', hold', -, hmarked⟩ := hcascaded.find?_cases hother
  cases hold.symm.trans hold'
  refine ⟨?_, hmarked ⟨_, campaign, .root, found, howns'⟩⟩
  obtain ⟨kind, k⟩ := other
  rcases hs.campaign_owns found hold howns' with rfl | rfl
  · -- a configuration document is not held
    exact absurd ((hs.shaped hold).document rfl) hheld
  · exact ⟨k, rfl⟩

/-- A work unit of the campaign that has an execution is still there. -/
theorem Regular.unit_left {unit : Object} (hunit : s.find? (unitSlot k) = some unit)
    (howns : campaign.Owns unit) (hexecution : s.find? (executionSlot k) = some o) :
    ∃ unit', s'.find? (unitSlot k) = some unit' ∧ campaign.Owns unit' := by
  cases hafter : s'.find? (unitSlot k) with
  | some unit' =>
    obtain ⟨uid, huid, howner⟩ := howns
    exact ⟨unit', rfl, uid, huid, hcascaded.owner_eq hunit hafter ▸ howner⟩
  | none =>
    rcases (hcascaded.find?_eq_none_iff _).1 hafter with hnone | hdoomed
    · cases hnone.symm.trans hunit
    · rcases hs.doomed_cases found hdoomed with heq | ⟨o₁, hunit₁, -, hfin⟩
      · cases heq
      · cases hunit.symm.trans hunit₁
        obtain ⟨-, held, hheld, hguarded⟩ := hs.bound.custody.guarded hexecution
        cases hunit.symm.trans hheld
        exact absurd hfin (Metadata.ne_nil_of_hasFinalizer hguarded)

end

/-! ## The teardown -/

/-- A campaign owns an object, directly or through a work unit. -/
def Pertains (s : Store) (campaign o : Object) : Prop :=
  campaign.Owns o ∨
    ∃ k unit, s.find? (unitSlot k) = some unit ∧ campaign.Owns unit ∧ unit.Owns o

/-- The work units of a campaign have gone and their executions with them, and nothing else. -/
structure Emptied (campaign : Object) (s s' : Store) : Prop where
  gone : ∀ {k unit}, s.find? (unitSlot k) = some unit → campaign.Owns unit →
    s'.find? (unitSlot k) = none ∧ s'.find? (executionSlot k) = none
  kept : ∀ slot, (∀ k unit, s.find? (unitSlot k) = some unit → campaign.Owns unit →
    slot ≠ unitSlot k ∧ slot ≠ executionSlot k) → s'.find? slot = s.find? slot

theorem Emptied.eq_of_some (h : Emptied campaign s s') (found : s'.find? slot = some o) :
    s.find? slot = some o ∧ ∀ k unit, s.find? (unitSlot k) = some unit → campaign.Owns unit →
      slot ≠ unitSlot k ∧ slot ≠ executionSlot k := by
  have haway : ∀ k unit, s.find? (unitSlot k) = some unit → campaign.Owns unit →
      slot ≠ unitSlot k ∧ slot ≠ executionSlot k := by
    intro k unit hunit howns
    constructor
    · rintro rfl
      cases (h.gone hunit howns).1.symm.trans found
    · rintro rfl
      cases (h.gone hunit howns).2.symm.trans found
  exact ⟨(h.kept slot haway).symm.trans found, haway⟩

section
variable {left : Store} (hs : Regular s) (found : s.find? (campaignSlot key) = some campaign)
  (hcascaded : s.Cascaded (campaignSlot key) s') (hemptied : Emptied campaign s' left)
include hs found hcascaded hemptied

/-- Nothing of the campaign is left. -/
theorem Emptied.not_pertains (hleft : left.find? slot = some o) : ¬ Pertains s campaign o := by
  obtain ⟨hfind, haway⟩ := hemptied.eq_of_some hleft
  rintro (howns | ⟨k, unit, hunit, howns, howns'⟩)
  · obtain ⟨⟨k, rfl⟩, -⟩ := hs.owned_left found hcascaded hfind howns
    exact (haway k o hfind howns).1 rfl
  · obtain ⟨old, hold, howns_old⟩ := exists_owned hcascaded hfind howns'
    rcases hs.owns hunit hold howns_old with ⟨hkind, -⟩ | ⟨k', hslot, rfl⟩
    · cases hkind
    · cases hslot
      obtain ⟨unit', hunit', howns⟩ := hs.unit_left found hcascaded hunit howns hold
      exact (haway k unit' hunit' howns).2 rfl

/-- What does not pertain to the campaign is as it was. -/
theorem Emptied.find?_eq (hne : slot ≠ campaignSlot key)
    (hnot : ∀ o, s.find? slot = some o → ¬ Pertains s campaign o) :
    left.find? slot = s.find? slot := by
  by_cases hat : ∃ k unit, s'.find? (unitSlot k) = some unit ∧ campaign.Owns unit ∧
      slot = executionSlot k
  · -- an execution that is there pertains to the campaign
    obtain ⟨k, unit, hunit, howns, rfl⟩ := hat
    obtain ⟨old, hold, howns_old⟩ := exists_owned hcascaded hunit howns
    rw [(hemptied.gone hunit howns).2]
    cases hfind : s.find? (executionSlot k) with
    | none => rfl
    | some e =>
      obtain ⟨unit', hunit', howns'⟩ := hs.unit_owns hfind
      cases hold.symm.trans hunit'
      exact (hnot e hfind (.inr ⟨k, old, hold, howns_old, howns'⟩)).elim
  · rw [hemptied.kept slot fun k unit hunit howns =>
      ⟨?_, fun heq => hat ⟨k, unit, hunit, howns, heq⟩⟩]
    · cases hfind : s.find? slot with
      | none => exact (hcascaded.find?_eq_none_iff slot).2 (.inl hfind)
      | some o => exact hs.spared found hcascaded hfind hne fun howns => hnot o hfind (.inl howns)
    · rintro rfl
      obtain ⟨old, hold, howns_old⟩ := exists_owned hcascaded hunit howns
      exact hnot old hold (.inl howns_old)

end

/-- One pass over each work unit that the campaign still owns empties it. -/
theorem emptied_of_round {v : World calls} {jobs : List Call} (hs : Arises s)
    (hround : Lifecycle.Round s v) (hv : beside.Completed [] s jobs v)
    (hdeleting : ∀ k unit, s.find? (unitSlot k) = some unit → campaign.Owns unit →
      unit.metadata.isDeleting)
    (hjobs : ∀ k, k ∈ jobs.map Call.key ↔
      ∃ unit, s.find? (unitSlot k) = some unit ∧ campaign.Owns unit) :
    Emptied campaign s v.store where
  gone {k unit} hunit howns := by
    obtain ⟨job, hjob, rfl⟩ := List.mem_map.1 ((hjobs k).2 ⟨unit, hunit, howns⟩)
    obtain ⟨t, ht, rfl⟩ := hv.exists_task hjob
    exact hround.gone hs.regular ht (hv.done t ht) hunit (hdeleting _ unit hunit howns)
  kept slot haway := hround.elsewhere slot fun t ht => by
    obtain ⟨unit, hunit, howns⟩ := (hjobs t.job.key).1 (List.mem_map_of_mem (hv.mem_jobs ht))
    exact haway _ unit hunit howns

/-- **A teardown completes.** After the deletion of a campaign without finalizers, and one pass over
each work unit that it still owns, in any order and also side by side, nothing that pertains to the
campaign is stored, and everything else is as it was. -/
theorem teardown_completes {w : World repertoire} (hw : openRules.Reachable w)
    (found : w.store.find? (campaignSlot key) = some campaign)
    (hfin : campaign.metadata.finalizers = []) (now : Instant) {jobs : List Call}
    (hkeys : (jobs.map Call.key).Nodup)
    (hjobs : ∀ k, k ∈ jobs.map Call.key ↔ ∃ unit,
      (w.store.delete now .campaign key .background).2.find? (unitSlot k) = some unit ∧
        campaign.Owns unit) :
    let s := (w.store.delete now .campaign key .background).2
    (w.store.delete now .campaign key .background).1 = .ok () ∧
    (∃ v, (inTurn calls).Completed [] s jobs v) ∧
    ∀ v, (inTurn calls).Completed [] s jobs v ∨ beside.Completed [] s jobs v →
      v.store.find? (campaignSlot key) = none ∧
      (∀ slot o, v.store.find? slot = some o → ¬ Pertains w.store campaign o) ∧
      ∀ slot, slot ≠ campaignSlot key →
        (∀ o, w.store.find? slot = some o → ¬ Pertains w.store campaign o) →
        v.store.find? slot = w.store.find? slot := by
  intro s
  have hnot : Propagation.background ≠ .orphan := nofun
  have hs : Regular w.store := regular hw
  have harises : Arises s :=
    Arises.outside ⟨w, hw, rfl⟩ (r := .delete .campaign key .background) trivial now
  have hcascaded : w.store.Cascaded (campaignSlot key) s :=
    Store.cascaded_of_free hs.sound found hfin now hnot
  obtain ⟨after, hdelete, -⟩ := Store.delete_visits now hnot found hfin
  refine ⟨congrArg Prod.fst hdelete,
    Rules.exists_completed (Rules.during_inTurn calls) [] s jobs,
    fun v hv => ?_⟩
  replace hv : beside.Completed [] s jobs v := hv.elim Lifecycle.beside_of_inTurn id
  have hround := Lifecycle.round_of_completed harises hv hkeys
  have hemptied : Emptied campaign s v.store :=
    emptied_of_round harises hround hv
      (fun _ _ hunit howns => (hs.owned_left found hcascaded hunit howns).2) hjobs
  refine ⟨?_, fun slot o hleft => hemptied.not_pertains hs found hcascaded hleft,
    fun slot hne hpertains => hemptied.find?_eq hs found hcascaded hne hpertains⟩
  rw [hemptied.kept (campaignSlot key) fun _ _ _ _ => ⟨nofun, nofun⟩]
  exact (hcascaded.find?_eq_none_iff _).2 (.inr .root)

/-- Whether a slot holds a work unit with finalizers only if it is this one, which belongs to a
campaign and has an execution. -/
def holdsOnly (s : Store) (key k : Key) : Bool :=
  ((s.find? (campaignSlot key)).any fun campaign =>
    campaign.metadata.finalizers.isEmpty && (s.find? (unitSlot k)).any fun unit =>
      decide (campaign.metadata.uid.isSome ∧
        unit.metadata.owner.map (·.uid) = campaign.metadata.uid)) &&
  (s.find? (executionSlot k)).isSome &&
  s.objects.all fun (slot, o) =>
    decide (slot.kind = .workUnit → o.metadata.finalizers ≠ [] → slot.key = k)

/-- One of two work units goes with the campaign, and the other one in the pass over it. -/
theorem teardown_completes_sample : ∃ (w : World repertoire) (campaign execution : Object)
    (jobs : List Call) (v : World calls), openRules.Reachable w ∧
    w.store.find? (campaignSlot Lifecycle.sampleCampaign.key) = some campaign ∧
    w.store.find? (executionSlot (Lifecycle.sampleUnit 0)) = some execution ∧
    Pertains w.store campaign execution ∧ (jobs.map Call.key).Nodup ∧
    (∀ k, k ∈ jobs.map Call.key ↔ ∃ unit,
      (w.store.delete .epoch .campaign Lifecycle.sampleCampaign.key .background).2.find?
        (unitSlot k) = some unit ∧ campaign.Owns unit) ∧
    (inTurn calls).Completed []
      (w.store.delete .epoch .campaign Lifecycle.sampleCampaign.key .background).2 jobs v ∧
    ∀ slot o, v.store.find? slot = some o → ¬ Pertains w.store campaign o := by
  have hplay : (openRules.play {} Lifecycle.sampleFleet).any fun w =>
      holdsOnly w.store Lifecycle.sampleCampaign.key (Lifecycle.sampleUnit 0) := by
    decide +kernel
  obtain ⟨w, hsteps, hholds⟩ := Rules.exists_of_play hplay
  have hw : openRules.Reachable w := ⟨trivial, hsteps⟩
  have hs := regular hw
  simp only [holdsOnly, Bool.and_eq_true, Option.any_eq_true, List.isEmpty_iff, List.all_eq_true,
    decide_eq_true_iff, Option.isSome_iff_exists] at hholds
  obtain ⟨⟨⟨campaign, found, hfin, unit, hunit, hissued, howner⟩, execution, hexecution⟩, honly⟩ :=
    hholds
  obtain ⟨uid, huid⟩ := hissued
  have howns : campaign.Owns unit := ⟨uid, huid, howner.trans huid⟩
  obtain ⟨unit', hunit', howns'⟩ := hs.unit_owns hexecution
  cases hunit.symm.trans hunit'
  have hcascaded := Store.cascaded_of_free hs.sound found hfin .epoch
    (show Propagation.background ≠ .orphan from nofun)
  let jobs : List Call := [{ key := Lifecycle.sampleUnit 0 }]
  have hjobs : ∀ k, k ∈ jobs.map Call.key ↔ ∃ unit,
      (w.store.delete .epoch .campaign Lifecycle.sampleCampaign.key .background).2.find?
        (unitSlot k) = some unit ∧ campaign.Owns unit := by
    intro k
    constructor
    · intro hk
      cases List.mem_singleton.1 hk
      exact hs.unit_left found hcascaded hunit howns hexecution
    · rintro ⟨left, hleft, howns⟩
      obtain ⟨old, hold, -, hheld⟩ := exists_held found hcascaded hleft howns
      exact List.mem_singleton.2 (honly _ (Keyed.mem_of_find? hold) rfl hheld)
  have hkeys : (jobs.map Call.key).Nodup := List.nodup_singleton _
  obtain ⟨-, ⟨v, hv⟩, hall⟩ := teardown_completes hw found hfin .epoch hkeys hjobs
  exact ⟨w, campaign, execution, jobs, v, hw, found, hexecution,
    .inr ⟨_, unit, hunit, howns, howns'⟩, hkeys, hjobs, hv, (hall v (.inl hv)).2.1⟩

end Fleet
end CampaignControl
