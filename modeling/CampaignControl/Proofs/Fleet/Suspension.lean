import CampaignControl.Proofs.Fleet.Drain

/-!
# The suspension of a campaign

A pass over a suspended campaign requests the deletion of its live work units, and nothing else
changes but the report on the campaign (`Fleet.Halts`). Another pass finds nothing to drain
(`Fleet.Halts.again`), and one pass over each work unit that has been marked finishes the drain
(`Fleet.Halts.finished`).

A campaign that is to be deleted itself is left alone, since its work units go with it
(`Fleet.undrained`).
-/

namespace CampaignControl
namespace Fleet

open Admission (campaignSlot)
open Lifecycle (unitSlot executionSlot Call calls beside)
open Rules (inTurn)

variable {s s' s₁ : Store} {key k : Key} {keys : List Key} {object unit : Object}
  {campaign : Campaign} {log : List Event} {repositories : List String}

/-! ## What becomes of the campaign -/

/-- What a pass over a suspended campaign has come to. -/
structure Halts (key : Key) (object : Object) (s : Store) (log : List Event) (s' : Store) :
    Prop where
  /-- Nothing is created. -/
  created_eq : s'.created = s.created
  /-- A live work unit has gone, or it is to be deleted. -/
  gone_or_deleting : ∀ {k unit}, Works object s k unit → s'.find? (unitSlot k) = none ∨
    ∃ unit', s'.find? (unitSlot k) = some unit' ∧ object.Owns unit' ∧ unit'.metadata.isDeleting
  /-- Nothing else changes but the campaign. -/
  kept : ∀ slot, slot ≠ campaignSlot key →
    (∀ k unit, slot = unitSlot k → Works object s k unit → unit.metadata.isDeleting) →
    s'.find? slot = s.find? slot
  /-- Exactly one event is published for each live work unit that was not to be deleted before. -/
  due : Due object s (log.map Event.entity)
  notice : ∀ e ∈ log, e.payload = .drainRequested ∧ e.campaign = key

theorem Drained.gone_or_deleting (h : Drained keys s s') (hdue : Due object s keys)
    (hworks : Works object s k unit) : s'.find? (unitSlot k) = none ∨
      ∃ unit', s'.find? (unitSlot k) = some unit' ∧ object.Owns unit' ∧
        unit'.metadata.isDeleting := by
  by_cases hk : k ∈ keys
  · obtain ⟨unit', found, hyields⟩ := h.yields k hk
    cases hworks.found.symm.trans found
    cases hafter : s'.find? (unitSlot k) with
    | none => exact .inl rfl
    | some left =>
      rw [hafter] at hyields
      cases hyields with
      | marked => exact .inr ⟨_, rfl, hworks.owned, rfl⟩
  · have hdeleting : unit.metadata.isDeleting := by
      by_contra hstays
      exact hk ((hdue.mem_iff k).2 ⟨unit, hworks, Bool.eq_false_of_not_eq_true hstays⟩)
    exact .inr ⟨unit, (h.unit_of_not_mem hk).trans hworks.found, hworks.owned, hdeleting⟩

theorem halts_of_drained (hs : Arises s) (h : Suspended s key object campaign)
    (hdue : Due object s keys) (hdrained : Drained keys s s₁)
    (hreported : Reported key object s₁ s') :
    Halts key object s (keys.map (drainNotice campaign)) s' := by
  have hentities : (keys.map (drainNotice campaign)).map Event.entity = keys := by
    rw [List.map_map]
    exact List.map_id keys
  have hunit : ∀ k, s'.find? (unitSlot k) = s₁.find? (unitSlot k) :=
    fun k => hreported.others _ nofun
  refine ⟨hreported.created_eq.trans hdrained.created_eq, fun {k unit} hworks => ?_,
    fun slot hne hdeleting => ?_, hentities.symm ▸ hdue, fun e he => ?_⟩
  · rw [hunit k]
    exact hdrained.gone_or_deleting hdue hworks
  · rw [hreported.others slot hne]
    refine hdrained.others slot fun k hk hslot => ?_
    obtain ⟨unit, hworks, hstays⟩ := (hdue.mem_iff k).1 hk
    cases hstays.symm.trans (hdeleting k unit hslot hworks)
  · obtain ⟨k, -, rfl⟩ := List.mem_map.1 he
    exact ⟨rfl, h.key_eq hs.regular.sound⟩

/-- A pass that does not fail is not counted. -/
theorem reconcile_settles {settings : Settings} {now : Instant} {g : Terms}
    {post : Action → List Event → Store → Prop}
    (h : (Admission.pass settings key now).Settles g post log s) :
    (Admission.reconcile settings key now).Settles g
      (fun result log s => ∃ action, result = .ok action ∧ post action log s) log s := by
  unfold Admission.reconcile
  refine Program.Settles.bind (Program.Settles.mono h fun result log s₁ hself hresult => ?_)
  obtain ⟨action, rfl, -⟩ := hresult s₁ hself
  exact hresult

/-- A pass over a suspended campaign that has had the store to itself. -/
theorem halts_of_completed {v : World Controller.repertoire} {settings : Settings} {now : Instant}
    (hs : Arises s) (h : Suspended s key object campaign)
    (hstays : object.metadata.isDeleting = false)
    (hv : (inTurn Controller.repertoire).Completed repositories s [.admission settings key now] v) :
    Arises v.store ∧
    (∃ object' campaign', Suspended v.store key object' campaign' ∧
      object'.metadata.uid = object.metadata.uid ∧ object'.metadata.isDeleting = false) ∧
    ∀ t ∈ v.tasks, t.rest = .done (.ok (.afterSeconds settings.requeue.idle)) ∧
      Halts key object s t.events v.store := by
  obtain ⟨result, past, abandoned, htasks, action, rfl, rfl, keys, s₁, hdue, hevents, hdrained,
    hreported⟩ := hv.settled (reconcile_settles (pass_settles hs h hstays settings now))
  refine ⟨hreported.arises, hreported.suspended, fun t ht => ?_⟩
  rw [htasks] at ht
  cases List.mem_singleton.1 ht
  rw [hevents]
  exact ⟨rfl, halts_of_drained hs h hdue hdrained hreported⟩

/-- A pass over a campaign that is to be deleted does nothing. -/
theorem undrained {v : World Controller.repertoire} {settings : Settings} {now : Instant}
    (h : Suspended s key object campaign) (hdel : object.metadata.isDeleting)
    (hv : (inTurn Controller.repertoire).Completed repositories s [.admission settings key now] v) :
    v.store = s ∧ ∀ t ∈ v.tasks, t.rest = .done (.ok .awaitChange) ∧ t.events = [] := by
  have hsettles : (Admission.pass settings key now).Settles (.alone repositories)
      (fun action log s' => action = .awaitChange ∧ log = [] ∧ s' = s) [] s := by
    unfold Admission.pass
    apply Pass.Settles.bind
    apply Pass.Settles.find? h.found?
    rintro s₁ rfl
    dsimp only
    rw [if_pos (h.metadata_eq ▸ hdel)]
    exact Pass.Settles.pure fun hsame => ⟨rfl, rfl, hsame⟩
  obtain ⟨result, past, abandoned, htasks, action, rfl, rfl, hevents, hstore⟩ :=
    hv.settled (reconcile_settles hsettles)
  refine ⟨hstore, fun t ht => ?_⟩
  rw [htasks] at ht
  cases List.mem_singleton.1 ht
  exact ⟨rfl, hevents⟩

/-- A work unit of a campaign that has been halted is to be deleted, as long as it is live. -/
theorem Halts.isDeleting {log : List Event} (h : Halts key object s log s')
    (hworks : Works object s' k unit) : unit.metadata.isDeleting := by
  by_cases hbefore : ∃ unit', Works object s k unit'
  · obtain ⟨unit', hbefore⟩ := hbefore
    rcases h.gone_or_deleting hbefore with hgone | ⟨left, hleft, -, hdeleting⟩
    · cases hgone.symm.trans hworks.found
    · cases hleft.symm.trans hworks.found
      exact hdeleting
  · have hsame : s'.find? (unitSlot k) = s.find? (unitSlot k) := by
      refine h.kept _ nofun fun k' unit' hslot hworks' => ?_
      cases hslot
      exact absurd ⟨unit', hworks'⟩ hbefore
    exact absurd ⟨unit, hsame ▸ hworks.found, hworks.owned, hworks.live⟩ hbefore

/-- A campaign that has been halted has nothing more to drain. -/
theorem Halts.again {log' : List Event} {object' : Object} {s₂ : Store}
    (h : Halts key object s log s') (huid : object'.metadata.uid = object.metadata.uid)
    (h' : Halts key object' s' log' s₂) :
    log' = [] ∧ ∀ slot, slot ≠ campaignSlot key → s₂.find? slot = s'.find? slot := by
  have hdeleting : ∀ {k unit}, Works object' s' k unit → unit.metadata.isDeleting := by
    rintro k unit ⟨found, ⟨uid, huid', howner⟩, hlive⟩
    exact h.isDeleting ⟨found, ⟨uid, huid ▸ huid', howner⟩, hlive⟩
  refine ⟨?_, fun slot hne => h'.kept slot hne fun _ _ _ hworks => hdeleting hworks⟩
  cases log' with
  | nil => rfl
  | cons e rest =>
    obtain ⟨unit, hworks, hstays⟩ := (h'.due.mem_iff e.entity).1 List.mem_cons_self
    cases hstays.symm.trans (hdeleting hworks)

/-- After a pass over each of the work units that are to be deleted, no live work unit of the
campaign is left, and no execution of one. -/
theorem Halts.finished {v : World calls} {jobs : List Call} (hs' : Arises s')
    (h : Halts key object s log s') (hround : Lifecycle.Round s' v)
    (hv : beside.Completed [] s' jobs v)
    (hdeleting : ∀ call ∈ jobs, ∃ unit, s'.find? (unitSlot call.key) = some unit ∧
      unit.metadata.isDeleting)
    (hjobs : ∀ k unit, s'.find? (unitSlot k) = some unit → object.Owns unit →
      unit.metadata.isDeleting → k ∈ jobs.map Call.key) :
    (∀ k unit, ¬ Works object v.store k unit) ∧
      ∀ k unit, Works object s k unit → v.store.find? (executionSlot k) = none := by
  -- a key is either passed over or left alone
  have hgone : ∀ k, k ∈ jobs.map Call.key →
      v.store.find? (unitSlot k) = none ∧ v.store.find? (executionSlot k) = none := by
    intro k hk
    obtain ⟨call, hcall, rfl⟩ := List.mem_map.1 hk
    obtain ⟨t, ht, rfl⟩ := hv.exists_task hcall
    obtain ⟨unit, found, hdel⟩ := hdeleting _ hcall
    exact hround.gone hs'.regular ht (hv.done t ht) found hdel
  have haway : ∀ k, k ∉ jobs.map Call.key →
      v.store.find? (unitSlot k) = s'.find? (unitSlot k) ∧
        v.store.find? (executionSlot k) = s'.find? (executionSlot k) := by
    intro k hk
    have hlater := hround.later fun t ht (heq : t.job.key = k) =>
      hk (heq ▸ List.mem_map_of_mem (hv.mem_jobs ht))
    exact ⟨hlater.unit, hlater.execution⟩
  constructor
  · intro k unit hworks
    by_cases hk : k ∈ jobs.map Call.key
    · cases (hgone k hk).1.symm.trans hworks.found
    · have hleft : Works object s' k unit :=
        { hworks with found := (haway k hk).1.symm.trans hworks.found }
      exact hk (hjobs k unit hleft.found hleft.owned (h.isDeleting hleft))
  · intro k unit hworks
    by_cases hk : k ∈ jobs.map Call.key
    · exact (hgone k hk).2
    · rw [(haway k hk).2]
      rcases h.gone_or_deleting hworks with hnone | ⟨left, hleft, howns, hdel⟩
      · cases hexecution : s'.find? (executionSlot k) with
        | none => rfl
        | some e =>
          obtain ⟨left, hleft, -⟩ := hs'.regular.unit_owns hexecution
          cases hnone.symm.trans hleft
      · exact absurd (hjobs k left hleft howns hdel) hk

/-- **A suspension drains exactly the live work units.** A pass over a suspended campaign that stays
creates nothing, and requests the deletion of each live work unit that is not to be deleted yet. It
changes nothing else but the report on the campaign, and another pass drains nothing. After one
more pass over each of the work units that are to be deleted, no live work unit of the campaign is
left, and no execution of one. -/
theorem suspension_drains {w : World repertoire} (hw : openRules.Reachable w)
    (h : Suspended w.store key object campaign) (hstays : object.metadata.isDeleting = false)
    (repositories : List String) (settings : Settings) (now : Instant) :
    let rules := inTurn Controller.repertoire
    (∃ v, rules.Completed repositories w.store [.admission settings key now] v) ∧
    ∀ v, rules.Completed repositories w.store [.admission settings key now] v →
      (∀ t ∈ v.tasks, t.rest = .done (.ok (.afterSeconds settings.requeue.idle)) ∧
        Halts key object w.store t.events v.store) ∧
      (∀ repositories settings now v',
        rules.Completed repositories v.store [.admission settings key now] v' →
          (∀ t ∈ v'.tasks, t.events = []) ∧
            ∀ slot, slot ≠ campaignSlot key → v'.store.find? slot = v.store.find? slot) ∧
      ∀ jobs : List Call, (jobs.map Call.key).Nodup →
        (∀ call ∈ jobs, ∃ unit, v.store.find? (unitSlot call.key) = some unit ∧
          unit.metadata.isDeleting) →
        (∀ k unit, v.store.find? (unitSlot k) = some unit → object.Owns unit →
          unit.metadata.isDeleting → k ∈ jobs.map Call.key) →
        (∃ v', (inTurn calls).Completed [] v.store jobs v') ∧
        ∀ v', (inTurn calls).Completed [] v.store jobs v' ∨ beside.Completed [] v.store jobs v' →
          (∀ k unit, ¬ Works object v'.store k unit) ∧
            ∀ k unit, Works object w.store k unit → v'.store.find? (executionSlot k) = none := by
  intro rules
  have hs : Arises w.store := ⟨w, hw, rfl⟩
  refine ⟨Rules.exists_completed (Rules.during_inTurn _) .., fun v hv => ?_⟩
  obtain ⟨hs', ⟨object', campaign', h', huid, hstays'⟩, hdone⟩ := halts_of_completed hs h hstays hv
  obtain ⟨t, ht, -⟩ := hv.exists_task List.mem_cons_self
  have hhalts := (hdone t ht).2
  refine ⟨hdone, fun repositories settings now v' hv' => ?_, fun jobs hkeys hdeleting hjobs => ?_⟩
  · obtain ⟨-, -, hdone'⟩ := halts_of_completed hs' h' hstays' hv'
    refine ⟨fun t' ht' => (hhalts.again huid (hdone' t' ht').2).1, ?_⟩
    obtain ⟨t', ht', -⟩ := hv'.exists_task List.mem_cons_self
    exact (hhalts.again huid (hdone' t' ht').2).2
  · refine ⟨Rules.exists_completed (Rules.during_inTurn calls) .., fun v' hv' => ?_⟩
    replace hv' := hv'.elim Lifecycle.beside_of_inTurn id
    exact hhalts.finished hs' (Lifecycle.round_of_completed hs' hv' hkeys) hv' hdeleting hjobs

/-- The campaign as it is after the passes of the sample, suspended and with other finalizers. -/
def sampleSuspended (finalizers : List String) : Campaign :=
  { Lifecycle.sampleCampaign with
    metadata := { Lifecycle.sampleCampaign.metadata with version := 5, finalizers }
    spec := { Lifecycle.sampleCampaign.spec with suspended := true } }

/-- Both work units get their executions, before the campaign is suspended. -/
def sampleSuspension : List (Turn repertoire) :=
  Lifecycle.sampleFleet ++
    .start (.pass (.lifecycle {} (Lifecycle.sampleUnit 1) .epoch)) ::
      (List.replicate 9 (.answer 2 .epoch {} []) ++
        [.outside .epoch (.update .campaign (Resource.encode (sampleSuspended [])))])

/-- The campaign is suspended and deleted while somebody holds it. -/
def sampleHold : List (Turn repertoire) :=
  Lifecycle.sampleFleet ++
    [.outside .epoch (.update .campaign (Resource.encode (sampleSuspended ["hold"]))),
      .outside .epoch (.delete .campaign Lifecycle.sampleCampaign.key .background)]

/-- Whether a suspended campaign is stored, and a live work unit of it that is not to be deleted. -/
def isRunningAt (s : Store) (key k : Key) (deleting : Bool) : Bool :=
  (s.find? (campaignSlot key)).any fun object =>
    decide (object.metadata.isDeleting = deleting) &&
    (match (Resource.decode object : Except StoreError Campaign) with
      | .ok campaign => campaign.spec.suspended
      | .error _ => false) &&
    (s.find? (unitSlot k)).any fun unit =>
      decide (object.metadata.uid.isSome ∧
        unit.metadata.owner.map (·.uid) = object.metadata.uid) &&
      unit.isLiveUnit && decide (unit.metadata.isDeleting = false)

theorem exists_of_isRunningAt {deleting : Bool} (h : isRunningAt s key k deleting) :
    ∃ object campaign unit, Suspended s key object campaign ∧
      object.metadata.isDeleting = deleting ∧ Works object s k unit ∧
      unit.metadata.isDeleting = false := by
  simp only [isRunningAt, Option.any_eq_true, Bool.and_eq_true, decide_eq_true_iff,
    Option.isSome_iff_exists] at h
  obtain ⟨object, found, ⟨hdeleting, hsuspended⟩, unit, hunit, ⟨⟨⟨uid, huid⟩, howner⟩, hlive⟩,
    hstays⟩ := h
  split at hsuspended
  · next campaign hdecode =>
    exact ⟨object, campaign, unit, ⟨found, hdecode, hsuspended⟩, hdeleting,
      ⟨hunit, ⟨uid, huid, howner.trans huid⟩, hlive⟩, hstays⟩
  · cases hsuspended

/-- Where the campaign is to be deleted itself, a live work unit is left as it is. -/
theorem suspension_spares :
    ¬ ∀ (w : World repertoire) (key : Key) (object : Object) (campaign : Campaign)
      (repositories : List String) (settings : Settings) (now : Instant)
      (v : World Controller.repertoire), openRules.Reachable w →
      Suspended w.store key object campaign →
      (inTurn Controller.repertoire).Completed repositories w.store
        [.admission settings key now] v →
      ∀ k unit, Works object w.store k unit → v.store.find? (unitSlot k) = none ∨
        ∃ unit', v.store.find? (unitSlot k) = some unit' ∧ unit'.metadata.isDeleting := by
  intro hdrains
  have hplay : (openRules.play {} sampleHold).any fun w =>
      isRunningAt w.store Lifecycle.sampleCampaign.key (Lifecycle.sampleUnit 0) true := by
    decide +kernel
  obtain ⟨w, hsteps, hrunning⟩ := Rules.exists_of_play hplay
  obtain ⟨object, campaign, unit, h, hdel, hworks, hstays⟩ := exists_of_isRunningAt hrunning
  obtain ⟨v, hv⟩ := Rules.exists_completed (Rules.during_inTurn Controller.repertoire) []
    w.store [.admission {} Lifecycle.sampleCampaign.key .epoch]
  obtain ⟨hstore, -⟩ := undrained h hdel hv
  rcases hdrains w _ object campaign [] {} .epoch v ⟨trivial, hsteps⟩ h hv _ unit hworks with
    hgone | ⟨unit', hleft, hdeleting⟩
  · rw [hstore, hworks.found] at hgone
    cases hgone
  · rw [hstore, hworks.found] at hleft
    cases hleft
    cases hstays.symm.trans hdeleting

/-- A pass over the campaign, to its end. -/
def sampleDrain : List (Turn Controller.repertoire) :=
  .start (.admission {} Lifecycle.sampleCampaign.key .epoch) ::
    List.replicate 10 (.answer 0 .epoch {} [])

def admitsAt (key : Key) : Controller.Job → Bool
  | .admission _ key' _ => decide (key' = key)
  | .lifecycle .. => false

/-- Whether a pass over a campaign has come to its end, and a work unit that is to be deleted is
stored at each of some keys, and none anywhere else. -/
def isDrainedAt (v : World Controller.repertoire) (key : Key) (keys : List Key) : Bool :=
  v.tasks.any (fun t => admitsAt key t.job) && v.tasks.all (·.rest.isDone) &&
  decide ((v.tasks.map fun t => t.events.length) = [keys.length]) &&
  (keys.all fun k => (v.store.find? (unitSlot k)).any fun unit => unit.metadata.isDeleting) &&
  v.store.objects.all fun (slot, _) => decide (slot.kind = .workUnit → slot.key ∈ keys)

theorem jobs_of_isDrainedAt {v : World Controller.repertoire} (h : isDrainedAt v key keys) :
    ∃ settings now, v.tasks.map Task.job = [.admission settings key now] := by
  simp only [isDrainedAt, Bool.and_eq_true, List.any_eq_true, decide_eq_true_iff] at h
  obtain ⟨⟨⟨⟨⟨t, ht, hadmits⟩, -⟩, hlength⟩, -⟩, -⟩ := h
  obtain ⟨t', htasks⟩ : ∃ t', v.tasks = [t'] := by
    have hone := congrArg List.length hlength
    rw [List.length_map] at hone
    exact List.length_eq_one_iff.1 hone
  rw [htasks] at ht ⊢
  cases List.mem_singleton.1 ht
  cases hjob : t.job with
  | admission settings key' now =>
    rw [hjob] at hadmits
    cases of_decide_eq_true hadmits
    exact ⟨settings, now, congrArg (· :: []) hjob⟩
  | lifecycle =>
    rw [hjob] at hadmits
    cases hadmits

/-- Both work units are held by their executions, and each is passed over once more. -/
theorem suspension_drains_sample : ∃ (w : World repertoire) (object unit : Object)
    (campaign : Campaign) (v : World Controller.repertoire) (jobs : List Call) (v' : World calls),
    openRules.Reachable w ∧ Suspended w.store Lifecycle.sampleCampaign.key object campaign ∧
    object.metadata.isDeleting = false ∧ Works object w.store (Lifecycle.sampleUnit 0) unit ∧
    (v.tasks.map fun t => t.events.length) = [2] ∧
    (∀ t ∈ v.tasks, Halts Lifecycle.sampleCampaign.key object w.store t.events v.store) ∧
    (inTurn calls).Completed [] v.store jobs v' ∧ (∀ k unit, ¬ Works object v'.store k unit) ∧
    v'.store.find? (executionSlot (Lifecycle.sampleUnit 0)) = none := by
  let keys := [Lifecycle.sampleUnit 0, Lifecycle.sampleUnit 1]
  have hplay : (openRules.play {} sampleSuspension).any fun w =>
      isRunningAt w.store Lifecycle.sampleCampaign.key (Lifecycle.sampleUnit 0) false &&
      ((inTurn Controller.repertoire).play { store := w.store } sampleDrain).any fun v =>
        isDrainedAt v Lifecycle.sampleCampaign.key keys := by
    decide +kernel
  obtain ⟨w, hsteps, hplay⟩ := Rules.exists_of_play hplay
  obtain ⟨hrunning, hplay⟩ := Bool.and_eq_true_iff.1 hplay
  obtain ⟨object, campaign, unit, h, hstays, hworks, -⟩ := exists_of_isRunningAt hrunning
  obtain ⟨v, hplay, hdrained⟩ := Option.any_eq_true _ _ |>.1 hplay
  obtain ⟨settings, now, hjobs⟩ := jobs_of_isDrainedAt hdrained
  simp only [isDrainedAt, Bool.and_eq_true, List.all_eq_true, decide_eq_true_iff,
    Option.any_eq_true] at hdrained
  obtain ⟨⟨⟨⟨-, hdone⟩, hlength⟩, hmarked⟩, honly⟩ := hdrained
  have hw : openRules.Reachable w := ⟨trivial, hsteps⟩
  have hscript : ∀ turn ∈ sampleDrain, turn.IsServed [] := by
    intro turn hturn
    rcases List.mem_cons.1 hturn with rfl | hturn
    · trivial
    · cases List.eq_of_mem_replicate hturn
      exact ⟨rfl, rfl⟩
  have hv := Rules.completed_of_play hscript hplay hdone
  rw [hjobs] at hv
  obtain ⟨hhalts, -, hround⟩ := (suspension_drains hw h hstays [] settings now).2 v hv
  let jobs : List Call := keys.map fun key => { key }
  have hkeys : jobs.map Call.key = keys := rfl
  obtain ⟨⟨v', hv'⟩, hfinished⟩ := hround jobs (by rw [hkeys]; decide)
    (fun call hcall => hmarked call.key (hkeys ▸ List.mem_map_of_mem hcall))
    fun k left hleft _ _ => hkeys ▸ honly _ (Keyed.mem_of_find? hleft) rfl
  obtain ⟨hnone, hexecutions⟩ := hfinished v' (.inl hv')
  exact ⟨w, object, unit, campaign, v, jobs, v', hw, h, hstays, hworks, hlength,
    fun t ht => (hhalts t ht).2, hv', hnone, hexecutions _ unit hworks⟩

end Fleet
end CampaignControl
