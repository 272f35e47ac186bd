import CampaignControl.Proofs.Admission.Recovery

/-!
# Repeated admission

A pass that has succeeded leaves nothing to do for another one. The configuration document has the
contents that it is to have (`Admission.refresh_of_refreshed`), every work unit that is still
planned is there already (`Admission.Admitted.missing_eq_nil`), and the report would say the same
again (`Admission.report_again`). So the next pass finds the work units of its plan, if there are
any, adopts them and leaves the store as it is, version counter and all
(`Admission.repeated_pass_changes_nothing`).
-/

namespace CampaignControl
namespace Admission

open Pass

variable {settings : Settings} {campaign : Campaign} {units units₁ : List WorkUnit}
  {batches : List Batch} {now later : Instant} {s s₁ : Store} {key : Key}
  {repositories : List String} {correlation : Uid} {scene : Scene}

/-! ## Nothing to write -/

/-- A report that tells of no creation and of the same numbers says what it said before, whenever it
is made. -/
theorem report_again (o : Outcome) (admittedAt admittedAt' : Option Instant) (now later : Instant)
    (status : Campaign.Status) :
    Outcome.report { o with created := 0 } admittedAt' later (o.report admittedAt now status) =
      o.report admittedAt now status := by
  have hconditions := Condition.set_set_at (validity .holds "Valid" "" now) later status.conditions
  simp only [Outcome.report, Nat.lt_irrefl, if_false, Campaign.Status.mk.injEq, true_and]
  exact hconditions

theorem refresh_of_contents {fresh current : ConfigDocument}
    (hbase : current.baseConfig = fresh.baseConfig) (hbatches : current.batches = fresh.batches) :
    refresh fresh current = (current, none) := by
  rw [refresh, hbase, hbatches, if_pos ⟨Json.same_self _, Json.same_self _⟩]

/-- Either there is nothing to refresh, or the document gets the fresh contents. -/
theorem refresh_cases (fresh current : ConfigDocument) :
    refresh fresh current = (current, none) ∨
      refresh fresh current =
        ({ current with baseConfig := fresh.baseConfig, batches := fresh.batches }, some ()) := by
  unfold refresh
  split
  · exact .inl rfl
  · exact .inr rfl

/-- A document that has been brought up to date has nothing to be refreshed. -/
theorem refresh_of_refreshed {fresh current : ConfigDocument} {before : Option Object} {o : Object}
    (hbare : o.bare = (refreshed fresh before).bare) (hdecode : Resource.decode o = .ok current) :
    refresh fresh current = (current, none) := by
  have hbody : o.body = (refreshed fresh before).body := by
    have h : o.bare.body = (refreshed fresh before).bare.body := by rw [hbare]
    exact h
  -- what is stored as a document with the right contents
  have hcontents : ∀ d : ConfigDocument, o.body = Resource.body d →
      d.baseConfig = fresh.baseConfig → d.batches = fresh.batches →
      refresh fresh current = (current, none) := by
    intro d hd hbase hbatches
    have hstored := Resource.decode_stored o.metadata d
    rw [← hd, hdecode] at hstored
    cases hstored
    exact refresh_of_contents hbase hbatches
  cases before with
  | none => exact hcontents fresh hbody rfl rfl
  | some old =>
    have hmap := Resource.decode_eq_map (α := ConfigDocument) hbody
    cases hold : (Resource.decode old : Except StoreError ConfigDocument) with
    | error e =>
      simp only [refreshed, hold] at hmap
      rw [hdecode] at hmap
      cases hmap
    | ok found =>
      rcases refresh_cases fresh found with hrefresh | hrefresh
      · simp only [refreshed, hold, hrefresh, hdecode, Except.map] at hmap
        cases hmap
        exact (refresh_setMetadata ..).trans (by rw [hrefresh]; rfl)
      · simp only [refreshed, hold, hrefresh] at hbody
        exact hcontents _ hbody rfl rfl

theorem perform_putDocument_same (settings : Settings) {o : Object} {current : ConfigDocument}
    (found : scene.store.find? (documentSlot campaign) = some o)
    (hdecode : Resource.decode o = .ok current)
    (hsame : refresh (document campaign batches) current = (current, none)) :
    (putDocument settings campaign batches).perform scene = (.ok (), scene) := by
  have hcharge := charge_of_kind_ne (show Kind.configDocument ≠ .workUnit from nofun)
    (Resource.encode (document campaign batches)) scene.budget
  have hkey : scene.store.find?
      { kind := Resource.kind ConfigDocument,
        key := (document campaign batches).metadata.key } = some o := found
  unfold putDocument
  rw [perform_bind_ok (perform_create_some hcharge found)]
  simp only [StoreError.isAlreadyExists, if_true]
  rw [perform_bind_ok (perform_modify_same hkey hdecode hsame)]
  rfl

theorem perform_writeStatus_same (settings : Settings) (now : Instant)
    (hcurrent : scene.store.campaign? campaign.key = some campaign) {outcome : Outcome}
    {admittedAt : Option Instant}
    (hsame : outcome.report admittedAt now campaign.status = campaign.status) :
    (writeStatus settings campaign now outcome admittedAt).perform scene = (.ok (), scene) := by
  obtain ⟨o, found, hdecode⟩ := Store.campaign?_eq_some.1 hcurrent
  let change : Campaign → Campaign × Option Unit := fun c =>
    let status := outcome.report admittedAt now c.status
    ({ c with status }, if status = c.status then none else some ())
  have hchange : change campaign = (campaign, none) := by
    simp only [change, hsame, if_true]
  show (modifyCampaign settings campaign change).perform scene = _
  unfold modifyCampaign
  rw [perform_bind_ok (perform_modify_same found hdecode hchange)]
  rfl

/-! ## A store where everything is done -/

/-- A pass over the campaign at this time has nothing to do: the document and the report say what
they are to say, and every work unit of the plan is there. -/
structure Settled (campaign : Campaign) (units : List WorkUnit) (batches : List Batch)
    (later : Instant) (s : Store) : Prop where
  stored : s.campaign? campaign.key = some campaign
  listed : (s.list .workUnit (unitFilter campaign)).mapM Resource.decode = .ok units
  upToDate : ∃ o current, s.find? (documentSlot campaign) = some o ∧
    Resource.decode o = .ok current ∧
    refresh (document campaign batches) current = (current, none)
  missing : s.missing (plan campaign units batches later).create = []
  reported : Outcome.report
    { live := liveCount units + (plan campaign units batches later).create.length
      batchCount := batches.length } (some later) later campaign.status = campaign.status

theorem Settled.perform_passOver (h : Settled campaign units batches later scene.store)
    (settings : Settings) (correlation : Uid) (hactive : campaign.spec.suspended = false)
    (hbatches : Partition.batches ((Keyed.find? campaign.key scene.repositories).getD [])
      campaign.spec.policy = .ok batches) (hbudget : scene.budget = none) :
    ∃ action after, (passOver settings campaign correlation later).perform scene =
      (.ok action, after) ∧ after.store = scene.store ∧
      after.events = scene.events ++ (plan campaign units batches later).create.map
        (admission campaign correlation scene.store) := by
  obtain ⟨o, current, found, hdecode, hsame⟩ := h.upToDate
  let outcome : Outcome := { live := (plan campaign units batches later).running
                             batchCount := batches.length }
  obtain ⟨left, hcreate⟩ := perform_createAll campaign correlation
    (nodup_slots campaign units batches later) outcome scene
  rw [hbudget] at hcreate
  simp only [within, h.missing, List.length_nil, if_true, Store.withUnits] at hcreate
  let scene₁ : Scene := { scene with
    budget := left
    events := scene.events ++ (plan campaign units batches later).create.map
      (admission campaign correlation scene.store) }
  have hcampaign : scene₁.store.campaign? campaign.key = some campaign := h.stored
  have hreport : Outcome.report { outcome with
      live := outcome.live + (plan campaign units batches later).create.length }
        (some later) later campaign.status = campaign.status := by
    simpa only [outcome, running_plan] using h.reported
  rw [perform_passOver_listed settings correlation later hactive h.listed,
    afterDiscovery_of_ok hbatches]
  unfold admitAll
  rw [perform_bind_ok (perform_putDocument_same settings found hdecode hsame),
    perform_bind_ok hcreate]
  dsimp only
  rw [perform_bind_ok (perform_measure ..),
    perform_bind_ok (perform_writeStatus_same settings later hcampaign hreport)]
  exact ⟨_, scene₁, rfl, rfl, rfl⟩

/-- A pass over a campaign that is there to stay. -/
theorem perform_pass_found (settings : Settings) (now : Instant) {campaign : Campaign}
    (hcampaign : scene.store.campaign? key = some campaign)
    (hdel : campaign.metadata.isDeleting = false) :
    (pass settings key now).perform scene =
      (passOver settings campaign (.issued (scene.correlations + 1)) now).perform
        { scene with correlations := scene.correlations + 1 } := by
  obtain ⟨o, found, hdecode⟩ := Store.campaign?_eq_some.1 hcampaign
  unfold pass
  rw [perform_bind_ok (perform_find?_ok found hdecode)]
  simp only [hdel, Bool.false_eq_true, if_false]
  rw [perform_bind_ok (perform_correlate ..)]

/-- A pass writes nothing if it cannot read the work units of its campaign. -/
theorem perform_pass_illegible (settings : Settings) (now : Instant)
    (hcampaign : scene.store.campaign? campaign.key = some campaign)
    (hdel : campaign.metadata.isDeleting = false) {e : StoreError}
    (hunits : ((scene.store.list .workUnit (unitFilter campaign)).mapM Resource.decode :
      Except StoreError (List WorkUnit)) = .error e) :
    (pass settings campaign.key now).perform scene =
      (.error (.store e), { scene with correlations := scene.correlations + 1 }) := by
  have hlist : (list (unitFilter campaign) : Pass (List WorkUnit)).perform
      { scene with correlations := scene.correlations + 1 } =
        (.error (.store e), { scene with correlations := scene.correlations + 1 }) := by
    rw [perform_list]
    exact congrArg (·.mapError Error.store, _) hunits
  rw [perform_pass_found settings now hcampaign hdel]
  unfold passOver
  rw [perform_bind_error hlist]

/-- A pass that rejects the campaign fails, makes known why and reports it. -/
theorem perform_pass_rejects (settings : Settings) (now : Instant) (hs : scene.store.Reached)
    (hactive : campaign.spec.suspended = false) {e : Error} (hkey : campaign.key = key)
    (hsurvey : scene.store.survey key ((Keyed.find? key scene.repositories).getD []) =
      .rejected campaign e) :
    ∃ s', (pass settings key now).perform scene = (.error e, { scene with
        store := s'
        correlations := scene.correlations + 1
        events := scene.events ++
          [rejectionNotice campaign (.issued (scene.correlations + 1)) e] }) ∧
      Rejected campaign e now scene.store s' := by
  subst hkey
  obtain ⟨hcampaign, hdel, ⟨units, hunits⟩, hbatches⟩ := Store.survey_eq_rejected.1 hsurvey
  let scene₁ : Scene := { scene with correlations := scene.correlations + 1 }
  have hs₁ : scene₁.store.Reached := hs
  have hunits₁ : (scene₁.store.list .workUnit (unitFilter campaign)).mapM Resource.decode =
    .ok units := hunits
  have hbatches₁ : Partition.batches ((Keyed.find? campaign.key scene₁.repositories).getD [])
    campaign.spec.policy = _ := hbatches
  obtain ⟨s', version, hreject, halike, hafter⟩ := perform_reject settings
    (.issued (scene.correlations + 1)) now hs₁ hcampaign e
  refine ⟨s', ?_, ⟨version, hafter⟩, halike⟩
  rw [perform_pass_found settings now hcampaign hdel,
    perform_passOver_listed settings _ now hactive hunits₁, afterDiscovery_of_error hbatches₁,
    perform_bind_ok hreject]
  rfl

theorem perform_pass_rejected (settings : Settings) (now : Instant) (hs : scene.store.Reached)
    (hactive : campaign.spec.suspended = false) {e : Error} (hkey : campaign.key = key)
    (hsurvey : scene.store.survey key ((Keyed.find? key scene.repositories).getD []) =
      .rejected campaign e) :
    ((pass settings key now).perform scene).1 = .error e := by
  obtain ⟨s', hpass, -⟩ := perform_pass_rejects settings now hs hactive hkey hsurvey
  exact congrArg Prod.fst hpass

/-- A pass that admits work units comes to what is left of it once the batches are cut. -/
theorem perform_pass_admits (settings : Settings) (now : Instant) (hs : scene.store.Reached)
    (hactive : campaign.spec.suspended = false) (hkey : campaign.key = key)
    (hsurvey : scene.store.survey key ((Keyed.find? key scene.repositories).getD []) =
      .admits campaign units batches) :
    let planned := (plan campaign units batches now).create
    let tried := within scene.budget planned
    ∃ result after, (pass settings key now).perform scene = (result, after) ∧
      Admitted campaign units batches now tried scene.store after.store ∧
      after.events = scene.events ++
        tried.map (admission campaign (.issued (scene.correlations + 1)) scene.store) ∧
      (if tried.length = planned.length then result = .ok (Outcome.action
          { created := (scene.store.missing tried).length, live := liveCount units + tried.length,
            batchCount := batches.length } settings.requeue)
        else result = .error (.store Scene.creationError)) := by
  subst hkey
  obtain ⟨hcampaign, hdel, hunits, hbatches, hreadable⟩ := Store.survey_eq_admits.1 hsurvey
  let scene₁ : Scene := { scene with correlations := scene.correlations + 1 }
  have hs₁ : scene₁.store.Reached := hs
  have hunits₁ : (scene₁.store.list .workUnit (unitFilter campaign)).mapM Resource.decode =
    .ok units := hunits
  have hbatches₁ : Partition.batches ((Keyed.find? campaign.key scene₁.repositories).getD [])
    campaign.spec.policy = _ := hbatches
  rw [perform_pass_found settings now hcampaign hdel,
    perform_passOver_listed settings _ now hactive hunits₁, afterDiscovery_of_ok hbatches₁]
  exact perform_admitAll settings _ now batches hs₁ hcampaign hunits hreadable

/-! ## What a pass leaves -/

/-- What a pass has tried is there. -/
theorem Admitted.occupied {tried : List WorkUnit}
    (h : Admitted campaign units batches now tried s s₁) {u : WorkUnit} (hu : u ∈ tried) :
    s₁.find? (Resource.slot u) ≠ none := by
  by_cases hmissing : u ∈ s.missing tried
  · obtain ⟨o, found, -⟩ := h.created u hmissing
    rw [found]
    nofun
  · have hnone : s.find? (Resource.slot u) ≠ none := fun hnone =>
      hmissing (List.mem_filter.2 ⟨hu, by rw [hnone]; rfl⟩)
    have hother : s₁.find? (Resource.slot u) = s.find? (Resource.slot u) := by
      refine h.other { kind := .workUnit, key := u.key } (Slot.ne_of_kind_ne (by decide))
        (Slot.ne_of_kind_ne (by decide)) fun u' hu' heq => hnone ?_
      have hnone' := Option.isNone_iff_eq_none.1 (List.mem_filter.1 hu').2
      rwa [heq] at hnone'
    rwa [hother]

/-- The slots of the work units of a plan do not depend on when it is made. -/
theorem exists_planned_at (hactive : campaign.spec.suspended = false) (now : Instant) {u : WorkUnit}
    (hu : u ∈ (plan campaign units batches later).create) :
    ∃ u' ∈ (plan campaign units batches now).create, Resource.slot u' = Resource.slot u := by
  rw [plan_of_not_suspended hactive] at hu ⊢
  obtain ⟨e, he, rfl⟩ := List.mem_map.1 hu
  exact ⟨_, List.mem_map_of_mem he, rfl⟩

theorem length_create_at (campaign : Campaign) (units : List WorkUnit) (batches : List Batch)
    (now later : Instant) :
    (plan campaign units batches later).create.length =
      (plan campaign units batches now).create.length := by
  unfold plan
  split
  · rfl
  · simp only [List.length_map]

/-- After a pass that has tried its whole plan there is nothing to do. -/
theorem Admitted.settled
    (h : Admitted campaign units batches now (plan campaign units batches now).create s s₁)
    (hactive : campaign.spec.suspended = false) (hsep : Separate batches)
    (hreadable : s.isReadable (documentSlot campaign)) (later : Instant) :
    ∃ c₁ units₁, Settled c₁ units₁ batches later s₁ ∧ c₁.key = campaign.key ∧
      c₁.spec = campaign.spec ∧ c₁.metadata.isDeleting = campaign.metadata.isDeleting := by
  obtain ⟨units₁, -, hunits₁, -⟩ := h.listed
  have hrest := h.rest hactive hsep (List.Sublist.refl _) hunits₁
  obtain ⟨version, hreported⟩ := h.reported
  obtain ⟨o, found, hbare⟩ := h.document
  have hreadable₁ := isReadable_of_refreshed hreadable found hbare
  rw [Store.isReadable, found, Option.all_some] at hreadable₁
  obtain ⟨current, hcurrent⟩ := Option.isSome_iff_exists.1 hreadable₁
  have hdecode : Resource.decode o = .ok current := Resource.eq_ok_of_toOption_decode hcurrent
  let report : Outcome :=
    { created := (s.missing (plan campaign units batches now).create).length
      live := liveCount units + (plan campaign units batches now).create.length
      batchCount := batches.length }
  let c₁ : Campaign := { campaign with
    status := report.report (some now) now campaign.status
    metadata := { campaign.metadata with version } }
  have hcreate : (plan c₁ units₁ batches later).create =
      (plan campaign units₁ batches later).create := rfl
  refine ⟨c₁, units₁, ⟨hreported, hunits₁, ?_, ?_, ?_⟩, rfl, rfl, rfl⟩
  · exact ⟨o, current, found, hdecode, refresh_of_refreshed hbare hdecode⟩
  · rw [hcreate]
    refine List.filter_eq_nil_iff.2 fun u hu => ?_
    obtain ⟨u', hu', hslot⟩ := exists_planned_at hactive now hu
    have hplanned : u' ∈ (plan campaign units batches now).create :=
      hrest.planned.mem_iff.2 (List.mem_append_right _ hu')
    rw [← hslot, Option.isNone_iff_eq_none]
    exact h.occupied hplanned
  · have hlength := hrest.planned.length_eq
    rw [List.length_append, ← length_create_at campaign units₁ batches now later] at hlength
    have hlive : liveCount units₁ + (plan campaign units₁ batches later).create.length =
        liveCount units + (plan campaign units batches now).create.length := by
      rw [hrest.live, hlength, Nat.add_assoc]
    rw [hcreate, hlive]
    exact report_again report (some now) (some later) now later campaign.status

/-! ## A pass after a pass -/

/-- A pass after all faults have been removed is a pass in the scene of the stage. -/
theorem healedPass_scene {stage : Stage} (h : Prepared key repositories stage)
    (settings : Settings) (now clock : Instant) :
    (healedPass settings key now stage clock).1 =
        ((pass settings key now).perform { stage.scene with clock, budget := none }).1 ∧
      (healedPass settings key now stage clock).2.scene =
        ((pass settings key now).perform { stage.scene with clock, budget := none }).2 := by
  obtain ⟨hresult, hscene, -⟩ := (h.healed clock).calm.run (reconcile settings key now)
  rw [run_reconcile] at hresult hscene
  exact ⟨hresult, hscene⟩

/-- A pass where everything is done leaves the store as it is and announces no work unit. -/
theorem unchanged_of_settled {stage : Stage} (h : Prepared key repositories stage)
    (settings : Settings) (clock : Instant)
    (hsettled : Settled campaign units batches later stage.store)
    (hkey : campaign.key = key) (hdel : campaign.metadata.isDeleting = false)
    (hbatches : Partition.batches repositories campaign.spec.policy = .ok batches) :
    (healedPass settings key later stage clock).2.store = stage.store ∧
      ∀ k, (healedPass settings key later stage clock).2.events.countP (Event.admits k) =
        stage.events.countP (Event.admits k) := by
  subst hkey
  obtain ⟨-, hscene⟩ := healedPass_scene h settings later clock
  let scene₁ : Scene := { stage.scene with
    clock, budget := none, correlations := stage.correlations + 1 }
  have hsettled₁ : Settled campaign units batches later scene₁.store := hsettled
  have hbatches₁ : Partition.batches ((Keyed.find? campaign.key scene₁.repositories).getD [])
      campaign.spec.policy = .ok batches := by
    rw [← h.repositories] at hbatches
    exact hbatches
  obtain ⟨action, after, hpass, hstore, hevents⟩ := hsettled₁.perform_passOver settings
    (.issued (stage.correlations + 1)) (h.ready.active _ hsettled.stored) hbatches₁ rfl
  have hfound := perform_pass_found settings later
    (show ({ stage.scene with clock, budget := none } : Scene).store.campaign? campaign.key =
      some campaign from hsettled.stored) hdel
  rw [hfound] at hscene
  replace hscene : (healedPass settings campaign.key later stage clock).2.scene = after :=
    hscene.trans (congrArg Prod.snd hpass)
  have hstore' : (healedPass settings campaign.key later stage clock).2.store = after.store :=
    congrArg Scene.store hscene
  have hevents' : (healedPass settings campaign.key later stage clock).2.events = after.events :=
    congrArg Scene.events hscene
  refine ⟨hstore'.trans hstore, fun k => ?_⟩
  rw [hevents', hevents, List.countP_append, countP_map_admission]
  have hnone : stage.store.missing (plan campaign units batches later).create = [] :=
    hsettled.missing
  show _ + (stage.store.missing _).countP _ = _
  rw [hnone]
  rfl

/-- **A repeated pass changes nothing.** A pass over a campaign that is not suspended, right after
one that has succeeded with the same repositories, leaves the store exactly as it is, and announces
no work unit. -/
theorem repeated_pass_changes_nothing (settings : Settings) {s : Store} (hs : s.Reached) {key : Key}
    {campaign : Campaign} (hcampaign : s.campaign? key = some campaign)
    (hactive : campaign.spec.suspended = false) {repositories : List String}
    (hnodup : repositories.Nodup) (now later clock clock' : Instant) :
    let stage : Stage := { store := s, repositories := [(key, repositories)] }
    let first := healedPass settings key now stage clock
    let second := healedPass settings key later first.2 clock'
    (∃ action, first.1 = .ok action) →
      second.2.store = first.2.store ∧
        ∀ k, second.2.events.countP (Event.admits k) = first.2.events.countP (Event.admits k) := by
  intro stage first second hok
  have hprepared : Prepared key repositories stage :=
    .of_store hs hcampaign hactive repositories .epoch
  have hkey : campaign.key = key := hprepared.ready.key_eq hcampaign
  obtain ⟨hfirst, hsolo⟩ := hprepared.healedPass settings now clock
  have hleaves : Leaves key repositories now none s first.2.store := hsolo.leaves
  unfold Leaves at hleaves
  split at hleaves
  · next hsurvey =>
    obtain ⟨-, hsolo'⟩ := hfirst.healedPass settings later clock'
    have hsame : Leaves key repositories later none first.2.store second.2.store := hsolo'.leaves
    have hnothing : first.2.store.planned key repositories later = [] := by
      rw [hleaves, Store.planned, hsurvey]
    rw [Leaves, hleaves, hsurvey, ← hleaves] at hsame
    refine ⟨hsame, fun k => (hsolo'.announced k).trans ?_⟩
    show _ + (first.2.store.missing (within none
      (first.2.store.planned key repositories later))).countP _ = _
    rw [hnothing]
    rfl
  · next c e hsurvey =>
    obtain ⟨hc, -⟩ := Store.survey_eq_rejected.1 hsurvey
    cases hcampaign.symm.trans hc
    obtain ⟨hresult, -⟩ := healedPass_scene hprepared settings now clock
    rw [perform_pass_rejected settings now hs hactive hkey (hprepared.repositories.symm ▸ hsurvey)]
      at hresult
    obtain ⟨action, haction⟩ := hok
    cases hresult.symm.trans haction
  · next c units batches hsurvey =>
    obtain ⟨hc, hdel, -, hbatches, hreadable⟩ := Store.survey_eq_admits.1 hsurvey
    cases hcampaign.symm.trans hc
    obtain ⟨c₁, units₁, hsettled, hkey₁, hspec, hdel₁⟩ := hleaves.settled hactive
      (separate_of_batches hnodup hbatches) hreadable later
    exact unchanged_of_settled hfirst settings clock' hsettled (hkey₁.trans hkey) (hdel₁.trans hdel)
      (by rw [hspec]; exact hbatches)

theorem exists_of_isOk {result : Except Error Action} (h : result.isOk) :
    ∃ action, result = .ok action := by
  cases result with
  | error => cases h
  | ok action => exact ⟨action, rfl⟩

/-- A work unit that nobody owns, in the place of the second work unit of the campaign. -/
def sampleStranger : WorkUnit where
  metadata := { key := { space := "fleet", name := "sweep-batch-1" } }
  spec := { campaign := "sweep", repositories := ["second"], batchIndex := 1, priority := 0,
            configDocument := "sweep-batches" }

def strangerStore : Store :=
  ({} : Store).serveAll
    [(.epoch, .create .campaign (Resource.encode sampleCampaign)),
      (.epoch, .create .workUnit (Resource.encode sampleStranger))]

theorem campaign?_strangerStore :
    ∃ c, strangerStore.campaign? sampleCampaign.key = some c ∧ c.spec.suspended = false := by
  have h : (strangerStore.campaign? sampleCampaign.key).any (!·.spec.suspended) := by
    decide +kernel
  obtain ⟨c, hc, hactive⟩ := Option.any_eq_true _ _ |>.1 h
  exact ⟨c, hc, by simpa using hactive⟩

/-- The first pass creates one work unit and adopts another one, and the next pass, an hour later,
adopts that again. -/
theorem repeated_pass_changes_nothing_sample :
    let stage : Stage :=
      { store := strangerStore, repositories := [(sampleCampaign.key, ["first", "second"])] }
    let later : Instant := { second := 3600, nano := 0 }
    let first := healedPass {} sampleCampaign.key .epoch stage .epoch
    let second := healedPass {} sampleCampaign.key later first.2 later
    first.2.events.map (·.payload) = [.admitted 0 1, .adopted 1] ∧
      second.2.events.map (·.payload) = [.admitted 0 1, .adopted 1, .adopted 1] ∧
      second.2.store = first.2.store := by
  have hreached : strangerStore.Reached := ⟨_, rfl⟩
  obtain ⟨campaign, hcampaign, hactive⟩ := campaign?_strangerStore
  have hok : ∃ action, (healedPass {} sampleCampaign.key .epoch
      { store := strangerStore, repositories := [(sampleCampaign.key, ["first", "second"])] }
      .epoch).1 = .ok action := exists_of_isOk (by decide +kernel)
  obtain ⟨hstore, -⟩ := repeated_pass_changes_nothing {} hreached hcampaign hactive
    (show ["first", "second"].Nodup by decide) .epoch { second := 3600, nano := 0 } .epoch
    { second := 3600, nano := 0 } hok
  refine ⟨?_, ?_, hstore⟩
  · decide +kernel
  · decide +kernel

end Admission
end CampaignControl
