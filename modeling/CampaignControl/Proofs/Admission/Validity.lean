import CampaignControl.Proofs.Admission.Delivery
import CampaignControl.Proofs.Store.Outcome

/-!
# The condition on the configuration

An admission pass ends by writing the condition that tells whether the campaign can be admitted as
configured, or by an error of the store. What it writes follows the policy of the campaign, whatever
has been written before. A suspended campaign is the exception, since its policy is not looked at:
it is called valid in any case (`Admission.validity_after_pass`).
-/

namespace CampaignControl

/-- The status of the condition that tells whether the campaign can be admitted as configured. -/
def Campaign.Status.validity? (s : Campaign.Status) : Option Condition.Status :=
  (Condition.find? Campaign.configurationValid s.conditions).map (·.status)

namespace Admission

open Pass

variable {settings : Settings} {key : Key} {campaign c : Campaign} {correlation : Uid}
  {now : Instant} {scene : Scene} {repositories : List String} {s s' : Store}

/-- A condition on the configuration that has been set is the verdict. -/
theorem validity?_of_set {status : Campaign.Status} {verdict : Condition.Status}
    {reason message : String} {conditions : List Condition}
    (h : status.conditions = (validity verdict reason message now).set conditions) :
    status.validity? = some verdict := by
  obtain ⟨c, hfind, hsame⟩ :=
    Condition.find?_set (validity verdict reason message now) conditions
  have hfind' : Condition.find? Campaign.configurationValid status.conditions = some c :=
    h ▸ hfind
  rw [Campaign.Status.validity?, hfind']
  exact congrArg some hsame.status

theorem validity?_report (o : Outcome) (admittedAt : Option Instant) (now : Instant)
    (status : Campaign.Status) : (o.report admittedAt now status).validity? = some .holds :=
  validity?_of_set rfl

theorem validity?_rejection (e : Error) (now : Instant) (status : Campaign.Status) :
    (rejection e now status).validity? = some .fails :=
  validity?_of_set rfl

/-! ## Draining -/

/-- What draining does to a store: it deletes, and what has no owner stays as it is unless it is a
work unit. -/
structure Drains (s s' : Store) : Prop where
  deletions : s.Deletions s'
  ownerless : ∀ slot o, slot.kind ≠ .workUnit → s.find? slot = some o →
    o.metadata.owner = none → s'.find? slot = some o

theorem Drains.refl (s : Store) : Drains s s := ⟨.refl, fun _ _ _ found _ => found⟩

theorem Drains.trans {s'' : Store} (h : Drains s s') (h' : Drains s' s'') : Drains s s'' where
  deletions := h.deletions.trans h'.deletions
  ownerless slot o hkind found howner :=
    h'.ownerless slot o hkind (h.ownerless slot o hkind found howner) howner

theorem drains_delete (hs : s.Reached) (now : Instant) (key : Key) :
    Drains s (s.delete now .workUnit key .background).2 where
  deletions := Store.delete_deletions ..
  ownerless _ _ hkind found howner :=
    Store.find?_delete_of_ownerless hs.intact.toSound found howner
      (fun heq => hkind (congrArg Slot.kind heq)) now

/-- Nothing keeps a pass from deleting all work units that are to go. -/
theorem perform_drainAll (campaign : Campaign) (correlation : Uid) (keys : List Key) (scene : Scene)
    (hs : scene.store.Reached) :
    ∃ s' events, (drainAll campaign correlation keys).perform scene =
        (.ok (), { scene with store := s', events }) ∧ Drains scene.store s' := by
  induction keys generalizing scene with
  | nil => exact ⟨scene.store, scene.events, rfl, .refl _⟩
  | cons key rest ih =>
    let deleted := scene.store.delete scene.clock .workUnit key .background
    have hdrains : Drains scene.store deleted.2 := drains_delete hs scene.clock key
    have hreached : deleted.2.Reached := hs.serve scene.clock (.delete .workUnit key .background)
    unfold drainAll
    rw [perform_bind_ok (perform_delete ..)]
    rcases Store.delete_cases scene.clock .workUnit key .background scene.store with hok | hnone
    · obtain ⟨s', events, hrest, hdrains'⟩ := ih { scene with
        store := deleted.2
        events := scene.events ++ [{ correlation, entity := key, campaign := campaign.key
                                     payload := .drainRequested }] } hreached
      rw [hok]
      dsimp only
      rw [publish, perform_bind_ok (perform_publish ..)]
      exact ⟨s', events, hrest, hdrains.trans hdrains'⟩
    · obtain ⟨s', events, hrest, hdrains'⟩ := ih { scene with store := deleted.2 } hreached
      rw [hnone]
      exact ⟨s', events, hrest, hdrains.trans hdrains'⟩

theorem perform_drain (campaign : Campaign) (correlation : Uid) (now : Instant)
    (units : List WorkUnit) (hs : scene.store.Reached) :
    ∃ outcome s' events, (drain campaign correlation now units).perform scene =
        (.ok outcome, { scene with store := s', events }) ∧ Drains scene.store s' := by
  obtain ⟨s', events, hdrain, hdrains⟩ := perform_drainAll campaign correlation
    (plan campaign units [] now).drain scene hs
  unfold drain
  rw [perform_bind_ok hdrain, perform_bind_ok (perform_measure ..)]
  exact ⟨_, s', events, rfl, hdrains⟩

theorem perform_writeStatus_none (settings : Settings) (campaign : Campaign) (now : Instant)
    (outcome : Outcome) (admittedAt : Option Instant)
    (hnone : scene.store.find? { kind := .campaign, key := campaign.key } = none) :
    (writeStatus settings campaign now outcome admittedAt).perform scene = (.ok (), scene) := by
  unfold writeStatus modifyCampaign
  rw [perform_bind_ok (perform_modify_none hnone)]
  rfl

/-- A drain does not take a campaign along that has no owner. -/
theorem Drains.campaign?_eq (h : Drains s s') (hcampaign : s.campaign? key = some campaign)
    (howner : campaign.metadata.owner = none) : s'.campaign? key = some campaign := by
  obtain ⟨o, found, hdecode⟩ := Store.campaign?_eq_some.1 hcampaign
  have hmetadata : campaign.metadata = o.metadata := Resource.metadata_of_decode hdecode
  rw [hmetadata] at howner
  exact Store.campaign?_eq_some.2
    ⟨o, h.ownerless _ o (nofun : Kind.campaign ≠ .workUnit) found howner, hdecode⟩

/-! ## What is written -/

/-- The campaign at a key has got this verdict on its configuration. A drain may have taken the
campaign along, if it has an owner. -/
structure Judged (key : Key) (campaign : Campaign) (status : Condition.Status) (s : Store) :
    Prop where
  verdict : ∀ c, s.campaign? key = some c →
    c.spec = campaign.spec ∧ c.status.validity? = some status
  kept : campaign.spec.suspended = false ∨ campaign.metadata.owner = none →
    ∃ c, s.campaign? key = some c

theorem Judged.of_eq {status : Condition.Status} (h : s.campaign? key = some c)
    (hspec : c.spec = campaign.spec) (hvalidity : c.status.validity? = some status) :
    Judged key campaign status s where
  verdict c' hc' := by
    cases h.symm.trans hc'
    exact ⟨hspec, hvalidity⟩
  kept _ := ⟨c, h⟩

/-- The pass over a suspended campaign calls it valid. -/
theorem perform_pass_suspended (settings : Settings) (now : Instant) (hs : scene.store.Reached)
    (hcampaign : scene.store.campaign? campaign.key = some campaign)
    (hdel : campaign.metadata.isDeleting = false) (hsuspended : campaign.spec.suspended)
    {units : List WorkUnit}
    (hunits : (scene.store.list .workUnit (unitFilter campaign)).mapM Resource.decode = .ok units) :
    Judged campaign.key campaign .holds
      ((pass settings campaign.key now).perform scene).2.store := by
  let scene₁ : Scene := { scene with correlations := scene.correlations + 1 }
  have hs₁ : scene₁.store.Reached := hs
  have hlist : (list (unitFilter campaign) : Pass (List WorkUnit)).perform scene₁ =
      (.ok units, scene₁) := by
    rw [perform_list]
    exact congrArg (·.mapError Error.store, scene₁) hunits
  obtain ⟨outcome, s', events, hdrain, hdrains⟩ := perform_drain campaign
    (.issued (scene.correlations + 1)) now units hs₁
  have hs' : s'.Reached := by
    have h := perform_reached
      (drain campaign (.issued (scene.correlations + 1)) now units) hs₁
    rwa [hdrain] at h
  rw [perform_pass_found settings now hcampaign hdel]
  unfold passOver
  rw [perform_bind_ok hlist]
  simp only [hsuspended, if_true]
  rw [perform_bind_ok hdrain]
  cases found : s'.find? { kind := .campaign, key := campaign.key } with
  | none =>
    have hnone : s'.campaign? campaign.key = none := by rw [Store.campaign?, found]; rfl
    rw [perform_bind_ok (perform_writeStatus_none settings campaign now outcome none found)]
    refine ⟨fun c hc => ?_, fun h => ?_⟩
    · cases hnone.symm.trans hc
    · have howner := h.resolve_left (by rw [hsuspended]; nofun)
      cases hnone.symm.trans (hdrains.campaign?_eq hcampaign howner)
  | some o =>
    obtain ⟨old, hold, hfades⟩ := hdrains.deletions.fades_of_find? found
    obtain ⟨o', found', hdecode'⟩ := Store.campaign?_eq_some.1 hcampaign
    cases hold.symm.trans found'
    have hdecode := Resource.decode_eq_map (α := Campaign) hfades.body
    rw [hdecode'] at hdecode
    have hcurrent : s'.campaign? campaign.key = some { campaign with metadata := o.metadata } :=
      Store.campaign?_eq_some.2 ⟨o, found, hdecode⟩
    have hs₂ : ({ scene₁ with store := s', events } : Scene).store.Reached := hs'
    obtain ⟨s'', version, hwrite, -, hafter⟩ := perform_writeStatus settings now hs₂ hcurrent
      outcome none
    rw [perform_bind_ok hwrite]
    exact .of_eq hafter rfl (validity?_report ..)

/-- All that a pass reads beside the campaign can be read. -/
structure Legible (campaign : Campaign) (s : Store) : Prop where
  units : ∃ units : List WorkUnit,
    (s.list .workUnit (unitFilter campaign)).mapM Resource.decode = .ok units
  document : s.isReadable (documentSlot campaign)

theorem not_legible_of_idle (hcampaign : s.campaign? key = some campaign)
    (hdel : campaign.metadata.isDeleting = false) (hsurvey : s.survey key repositories = .idle) :
    ¬ Legible campaign s := by
  rintro ⟨⟨units, hunits⟩, hreadable⟩
  cases hbatches : Partition.batches repositories campaign.spec.policy with
  | error e =>
    cases hsurvey.symm.trans
      (Store.survey_eq_rejected.2 ⟨hcampaign, hdel, ⟨units, hunits⟩, hbatches⟩)
  | ok batches =>
    cases hsurvey.symm.trans
      (Store.survey_eq_admits.2 ⟨hcampaign, hdel, hunits, hbatches, hreadable⟩)

/-- The verdict on the configuration of a campaign. The policy of a suspended one does not
matter. -/
def verdict (spec : Campaign.Spec) : Condition.Status :=
  if spec.suspended ∨ spec.policy.IsAccepted then .holds else .fails

theorem verdict_eq_holds_iff (spec : Campaign.Spec) (repositories : List String) :
    verdict spec = .holds ↔
      spec.suspended ∨ ∃ batches, Partition.batches repositories spec.policy = .ok batches := by
  unfold verdict
  rw [← Partition.isAccepted_iff spec.policy repositories]
  split <;> simp [*]

theorem verdict_eq_fails_iff (spec : Campaign.Spec) (repositories : List String) :
    verdict spec = .fails ↔ spec.suspended = false ∧
      ∃ e, Partition.batches repositories spec.policy = .error e := by
  have haccepted := Partition.isAccepted_iff spec.policy repositories
  unfold verdict
  split
  · next h =>
    refine iff_of_false nofun ?_
    rintro ⟨hactive, e, he⟩
    obtain ⟨batches, hbatches⟩ := haccepted.1 (h.resolve_left (by rw [hactive]; nofun))
    cases he.symm.trans hbatches
  · next h =>
    obtain ⟨hactive, hnot⟩ := not_or.1 h
    exact iff_of_true rfl
      ⟨Bool.eq_false_iff.2 hactive, _, Partition.batches_of_not_isAccepted hnot repositories⟩

/-- The pass over a campaign that is not suspended gives a verdict, or there is something that it
cannot read. -/
theorem perform_pass_judges (settings : Settings) (now : Instant) (hs : scene.store.Reached)
    (hcampaign : scene.store.campaign? campaign.key = some campaign)
    (hdel : campaign.metadata.isDeleting = false) (hactive : campaign.spec.suspended = false) :
    let outcome := (pass settings campaign.key now).perform scene
    (¬ Legible campaign scene.store ∧ (∃ e, outcome.1 = .error e) ∧
      outcome.2.store = scene.store) ∨
    Judged campaign.key campaign (verdict campaign.spec) outcome.2.store := by
  intro outcome
  obtain ⟨result, after, hpass, hsolo⟩ := perform_pass settings campaign.key now hs
    fun c hc => by cases hcampaign.symm.trans hc; exact hactive
  have houtcome : outcome = (result, after) := hpass
  rw [houtcome]
  have hleaves := hsolo.leaves
  unfold Leaves at hleaves
  split at hleaves
  · next hsurvey =>
    obtain ⟨e, he⟩ := perform_pass_idle settings now hcampaign hdel hactive hsurvey
    rw [hpass] at he
    exact .inl ⟨not_legible_of_idle hcampaign hdel hsurvey, ⟨e, he⟩, hleaves⟩
  · next c e hsurvey =>
    obtain ⟨hc, -, -, hbatches⟩ := Store.survey_eq_rejected.1 hsurvey
    cases hcampaign.symm.trans hc
    have hnot : ¬ campaign.spec.policy.IsAccepted := fun haccepted => by
      obtain ⟨batches, hok⟩ := Partition.batches_of_isAccepted haccepted _
      cases hbatches.symm.trans hok
    have hverdict : verdict campaign.spec = .fails := if_neg (by simp [hactive, hnot])
    obtain ⟨version, hreported⟩ := hleaves.reported
    rw [hverdict]
    exact .inr (.of_eq hreported rfl (validity?_rejection ..))
  · next c units batches hsurvey =>
    obtain ⟨hc, -, -, hbatches, -⟩ := Store.survey_eq_admits.1 hsurvey
    cases hcampaign.symm.trans hc
    have haccepted := (Partition.isAccepted_iff _ _).2 ⟨batches, hbatches⟩
    have hverdict : verdict campaign.spec = .holds := if_pos (.inr haccepted)
    obtain ⟨version, hreported⟩ := hleaves.reported
    rw [hverdict]
    exact .inr (.of_eq hreported rfl (validity?_report ..))

/-- A pass without faults over a store is a pass in a scene with this store. -/
theorem healedPass_scene_of_store (settings : Settings) (s : Store) (key : Key)
    (repositories : List String) (now clock : Instant) :
    let outcome := healedPass settings key now
      { store := s, repositories := [(key, repositories)] } clock
    let performed := (pass settings key now).perform
      { store := s, repositories := [(key, repositories)], clock }
    outcome.1 = performed.1 ∧ outcome.2.scene = performed.2 := by
  intro outcome performed
  have hcalm : Stage.Calm { store := s, repositories := [(key, repositories)], clock } :=
    ⟨rfl, rfl, rfl, ⟨rfl, rfl, fun _ _ => rfl⟩⟩
  obtain ⟨hresult, hscene, -⟩ := hcalm.run (reconcile settings key now)
  rw [run_reconcile] at hresult hscene
  exact ⟨hresult, hscene⟩

theorem healedPass_of_store (settings : Settings) (s : Store) (key : Key)
    (repositories : List String) (now clock : Instant) :
    let outcome := healedPass settings key now
      { store := s, repositories := [(key, repositories)] } clock
    let performed := (pass settings key now).perform
      { store := s, repositories := [(key, repositories)], clock }
    outcome.1 = performed.1 ∧ outcome.2.store = performed.2.store := by
  obtain ⟨hresult, hscene⟩ := healedPass_scene_of_store settings s key repositories now clock
  exact ⟨hresult, congrArg Scene.store hscene⟩

/-- **The condition on the configuration follows the policy.** After a pass without faults over a
campaign that is not being deleted, the condition of the campaign tells whether batches can be cut
by its policy, whatever it told before, unless the pass has met something that it cannot read, has
failed and has written nothing. The policy of a suspended campaign is not looked at, and the
condition holds. A campaign is still there after the pass, unless it is suspended and a work unit
that has been deleted may have owned it. -/
theorem validity_after_pass (settings : Settings) {s : Store} (hs : s.Reached) {key : Key}
    {campaign : Campaign} (hcampaign : s.campaign? key = some campaign)
    (hdel : campaign.metadata.isDeleting = false) (repositories : List String)
    (now clock : Instant) :
    let outcome := healedPass settings key now
      { store := s, repositories := [(key, repositories)] } clock
    ((¬ Legible campaign s ∧ (∃ e, outcome.1 = .error e) ∧ outcome.2.store = s) ∨
      Judged key campaign (verdict campaign.spec) outcome.2.store) ∧
    (∀ list, verdict campaign.spec = .holds ↔ campaign.spec.suspended ∨
      ∃ batches, Partition.batches list campaign.spec.policy = .ok batches) ∧
    ∀ list, verdict campaign.spec = .fails ↔ campaign.spec.suspended = false ∧
      ∃ e, Partition.batches list campaign.spec.policy = .error e := by
  intro outcome
  refine ⟨?_, verdict_eq_holds_iff campaign.spec, verdict_eq_fails_iff campaign.spec⟩
  obtain rfl : campaign.key = key := Store.campaign_key_eq hs hcampaign
  obtain ⟨hresult, hstore⟩ := healedPass_of_store settings s campaign.key repositories now clock
  let scene : Scene := { store := s, repositories := [(campaign.key, repositories)], clock }
  have hs' : scene.store.Reached := hs
  rw [hresult, hstore]
  cases hsuspended : campaign.spec.suspended with
  | false => exact perform_pass_judges settings now hs' hcampaign hdel hsuspended
  | true =>
    have hverdict : verdict campaign.spec = .holds := if_pos (.inl hsuspended)
    rw [hverdict]
    cases hunits : ((s.list .workUnit (unitFilter campaign)).mapM Resource.decode :
      Except StoreError (List WorkUnit)) with
    | ok units =>
      exact .inr (perform_pass_suspended settings now hs' hcampaign hdel hsuspended hunits)
    | error e =>
      have hcampaign' : scene.store.campaign? campaign.key = some campaign := hcampaign
      have hpass := perform_pass_illegible settings now hcampaign' hdel hunits
      refine .inl ⟨fun h => ?_, ⟨.store e, ?_⟩, ?_⟩
      · obtain ⟨units, hok⟩ := h.units
        cases hunits.symm.trans hok
      · exact congrArg Prod.fst hpass
      · exact congrArg (·.2.store) hpass

/-- A policy with a size that is not accepted. -/
def sampleSizeless : SchedulingPolicy := { strategy := .fixedBatchSize, batchSize := 0 }

def sizelessStore (suspended : Bool) : Store :=
  ({} : Store).serveAll [(.epoch, .create .campaign (Resource.encode
    { sampleCampaign with spec := { policy := sampleSizeless, suspended } }))]

/-- A campaign that is not suspended is called invalid. -/
theorem validity_after_pass_sample :
    let outcome := healedPass {} sampleCampaign.key .epoch
      { store := sizelessStore false, repositories := [(sampleCampaign.key, ["first"])] } .epoch
    ∃ c, outcome.2.store.campaign? sampleCampaign.key = some c ∧
      c.status.validity? = some .fails := by
  intro outcome
  have h : ((sizelessStore false).campaign? sampleCampaign.key).any fun c =>
      c.spec = { policy := sampleSizeless } ∧ c.metadata.isDeleting = false := by
    decide +kernel
  obtain ⟨campaign, hcampaign, hcheck⟩ := Option.any_eq_true _ _ |>.1 h
  obtain ⟨hspec, hdel⟩ := of_decide_eq_true hcheck
  obtain ⟨hjudged, -, hfails⟩ := validity_after_pass {} ⟨_, rfl⟩ hcampaign hdel ["first"] .epoch
    .epoch
  have hwritten : outcome.2.store ≠ sizelessStore false := by decide +kernel
  have hverdict : verdict campaign.spec = .fails := (hfails ["first"]).2 (by
    rw [hspec]
    exact ⟨rfl, _, rfl⟩)
  have hjudged := hjudged.resolve_left fun hidle => hwritten hidle.2.2
  obtain ⟨c, hc⟩ := hjudged.kept (.inl (by rw [hspec]))
  exact ⟨c, hc, hverdict ▸ (hjudged.verdict c hc).2⟩

/-- **A suspended campaign is called valid with a policy that is not accepted.** -/
theorem suspension_hides_invalid :
    let outcome := healedPass {} sampleCampaign.key .epoch
      { store := sizelessStore true, repositories := [(sampleCampaign.key, ["first"])] } .epoch
    (sizelessStore true).Reached ∧
    ((sizelessStore true).campaign? sampleCampaign.key).any (fun c =>
      c.metadata.isDeleting = false ∧
        (Partition.batches ["first"] c.spec.policy).toOption = none) ∧
    outcome.1.isOk ∧
    (outcome.2.store.campaign? sampleCampaign.key).any (·.status.validity? = some .holds) :=
  ⟨⟨_, rfl⟩, by decide +kernel, by decide +kernel, by decide +kernel⟩

end Admission
end CampaignControl
