import CampaignControl.Lifecycle.Observation
import CampaignControl.Proofs.Admission.Documents
import CampaignControl.Proofs.Admission.Repetition
import CampaignControl.Proofs.CommandLine.Usage
import Mathlib.Algebra.BigOperators.Group.List.Basic

/-!
# From a pass to its workers

A pass that succeeds has cut what was discovered into batches and left a configuration document
with just these batches (`Admission.upToDate_iff`). Each work unit that it has created tells its
execution the index of a batch, and a worker that reads this index off the text in its
environment is given the batch (`Admission.batches_reach_workers`). A campaign that is being
deleted is passed by, and has no document then if it had none before
(`Admission.nothing_reaches_workers`).
-/

namespace CampaignControl

namespace Partition

/-- No batch is empty, so there are at most as many as repositories. -/
theorem Cut.length_le {repositories : List String} {cut : List Batch} (h : Cut repositories cut) :
    cut.length ≤ repositories.length := by
  rw [← h.flatten, List.length_flatten]
  have hsum := List.length_le_sum_of_one_le (cut.map List.length) fun n hn => by
    obtain ⟨batch, hbatch, rfl⟩ := List.mem_map.1 hn
    exact List.length_pos_iff.2 (h.ne_nil batch hbatch)
  rwa [List.length_map] at hsum

end Partition

namespace Admission

open Pass

variable {settings : Settings} {key : Key} {campaign : Campaign} {now : Instant} {scene : Scene}
  {units : List WorkUnit} {batches : List Batch} {repositories : List String} {s s₁ : Store}

/-! ## The document -/

/-- A pass leaves a document that is up to date. -/
theorem Admitted.upToDate {tried : List WorkUnit}
    (h : Admitted campaign units batches now tried s s₁)
    (hreadable : s.isReadable (documentSlot campaign)) :
    ∃ (o : Object) (d : ConfigDocument), s₁.find? (documentSlot campaign) = some o ∧
      Resource.decode o = .ok d ∧ refresh (Admission.document campaign batches) d = (d, none) := by
  obtain ⟨o, found, hbare⟩ := h.document
  have hreadable₁ := isReadable_of_refreshed hreadable found hbare
  rw [Store.isReadable, found, Option.all_some] at hreadable₁
  obtain ⟨d, hd⟩ := Option.isSome_iff_exists.1 hreadable₁
  have hdecode : Resource.decode o = .ok d := Resource.eq_ok_of_toOption_decode hd
  exact ⟨o, d, found, hdecode, refresh_of_refreshed hbare hdecode⟩

/-! ## The work units -/

theorem getElem?_of_mem_create {u : WorkUnit} (hactive : campaign.spec.suspended = false)
    (hu : u ∈ (plan campaign units batches now).create) :
    batches[u.spec.batchIndex]? = some u.spec.repositories := by
  rw [plan_of_not_suspended hactive] at hu
  obtain ⟨e, he, rfl⟩ := List.mem_map.1 hu
  exact (mem_uncovered_iff.1 (List.mem_of_mem_take he)).1

/-- What a pass has put into an empty slot is a work unit for one of the batches. -/
theorem Admitted.exists_unit {tried : List WorkUnit}
    (h : Admitted campaign units batches now tried s s₁)
    (hactive : campaign.spec.suspended = false)
    (htried : tried.Sublist (plan campaign units batches now).create) {k : Key} {o : Object}
    (hnone : s.find? { kind := .workUnit, key := k } = none)
    (found : s₁.find? { kind := .workUnit, key := k } = some o) :
    ∃ u : WorkUnit, Resource.decode o = .ok u ∧
      batches[u.spec.batchIndex]? = some u.spec.repositories := by
  obtain ⟨u, hu, hslot⟩ : ∃ u ∈ s.missing tried,
      Resource.slot u = { kind := .workUnit, key := k } := by
    by_contra hnot
    have hsame := h.other { kind := .workUnit, key := k } (Slot.ne_of_kind_ne (by decide))
      (Slot.ne_of_kind_ne (by decide)) fun u hu heq => hnot ⟨u, hu, heq⟩
    rw [hnone, found] at hsame
    cases hsame
  obtain ⟨o', found', hbare⟩ := h.created u hu
  rw [hslot, found] at found'
  cases found'
  have hbody : o.body = Resource.body u := by
    have : o.bare.body = (Resource.encode u).bare.body := by rw [hbare]
    exact this
  have hbatch := getElem?_of_mem_create hactive (htried.subset (List.mem_of_mem_filter hu))
  refine ⟨{ u with metadata := o.metadata }, ?_, hbatch⟩
  have hstored := Resource.decode_stored o.metadata u
  rwa [← hbody] at hstored

/-- The environment of an execution has the index of its worker as a text. -/
theorem find?_index_env (u : WorkUnit) :
    Keyed.find? Dispatch.indexVariable u.toExecution.spec.env =
      some (toString u.spec.batchIndex) := by
  simp [WorkUnit.toExecution, Keyed.find?, Dispatch.indexVariable, Dispatch.documentVariable]

/-! ## The pass -/

/-- A pass that stays idle over a campaign that is there to stay fails. -/
theorem perform_pass_idle (settings : Settings) (now : Instant)
    (hcampaign : scene.store.campaign? campaign.key = some campaign)
    (hdel : campaign.metadata.isDeleting = false) (hactive : campaign.spec.suspended = false)
    (hsurvey : scene.store.survey campaign.key
      ((Keyed.find? campaign.key scene.repositories).getD []) = .idle) :
    ∃ e, ((pass settings campaign.key now).perform scene).1 = .error e := by
  let scene₁ : Scene := { scene with correlations := scene.correlations + 1 }
  cases hunits : ((scene₁.store.list .workUnit (unitFilter campaign)).mapM Resource.decode :
    Except StoreError (List WorkUnit)) with
  | error e =>
    exact ⟨_, congrArg Prod.fst (perform_pass_illegible settings now hcampaign hdel hunits)⟩
  | ok units =>
    rw [perform_pass_found settings now hcampaign hdel,
      perform_passOver_listed settings _ now hactive hunits]
    cases hbatches : Partition.batches ((Keyed.find? campaign.key scene₁.repositories).getD [])
      campaign.spec.policy with
    | error e =>
      cases hsurvey.symm.trans
        (Store.survey_eq_rejected.2 ⟨hcampaign, hdel, ⟨units, hunits⟩, hbatches⟩)
    | ok batches =>
      cases hreadable : scene₁.store.isReadable (documentSlot campaign) with
      | true =>
        cases hsurvey.symm.trans
          (Store.survey_eq_admits.2 ⟨hcampaign, hdel, hunits, hbatches, hreadable⟩)
      | false =>
        obtain ⟨e, hput⟩ := perform_putDocument_error settings batches hreadable
        rw [afterDiscovery_of_ok hbatches]
        unfold admitAll
        rw [perform_bind_error hput]
        exact ⟨_, rfl⟩

/-- A pass that succeeds over a campaign that is there to stay has tried its whole plan. -/
theorem admitted_of_ok {stage : Stage} (h : Prepared key repositories stage) (settings : Settings)
    (now clock : Instant) (hcampaign : stage.store.campaign? key = some campaign)
    (hdel : campaign.metadata.isDeleting = false) {action : Action}
    (hok : (healedPass settings key now stage clock).1 = .ok action) :
    ∃ units batches, Partition.batches repositories campaign.spec.policy = .ok batches ∧
      stage.store.isReadable (documentSlot campaign) ∧
      Admitted campaign units batches now (plan campaign units batches now).create stage.store
        (healedPass settings key now stage clock).2.store := by
  have hactive := h.ready.active campaign hcampaign
  obtain rfl := h.ready.key_eq hcampaign
  obtain ⟨hresult, -⟩ := healedPass_scene h settings now clock
  obtain ⟨-, hsolo⟩ := h.healedPass settings now clock
  have hleaves : Leaves campaign.key repositories now none stage.store
    (healedPass settings campaign.key now stage clock).2.store := hsolo.leaves
  rw [hok] at hresult
  let scene : Scene := { stage.scene with clock, budget := none }
  have hcampaign' : scene.store.campaign? campaign.key = some campaign := hcampaign
  have hreached : scene.store.Reached := h.ready.reached
  have hrepositories : (Keyed.find? campaign.key scene.repositories).getD [] = repositories :=
    h.repositories
  unfold Leaves at hleaves
  split at hleaves
  · next hsurvey =>
    rw [← hrepositories] at hsurvey
    obtain ⟨e, he⟩ := perform_pass_idle settings now hcampaign' hdel hactive hsurvey
    cases hresult.trans he
  · next c e hsurvey =>
    obtain ⟨hc, -⟩ := Store.survey_eq_rejected.1 hsurvey
    cases hcampaign.symm.trans hc
    rw [← hrepositories] at hsurvey
    cases hresult.trans (perform_pass_rejected settings now hreached hactive rfl hsurvey)
  · next c units batches hsurvey =>
    obtain ⟨hc, -, -, hbatches, hreadable⟩ := Store.survey_eq_admits.1 hsurvey
    cases hcampaign.symm.trans hc
    exact ⟨units, batches, hbatches, hreadable, hleaves⟩

/-- **Batches reach their workers.** A pass that succeeds over a campaign that is neither suspended
nor being deleted leaves a document with the base configuration and the batches of what was
discovered, as many as the campaign reports. For the index of each batch a worker is given the base
configuration with the repositories of this batch, and for a greater one nothing; all batches
together are what was discovered. Each work unit that the pass has created tells its execution an
index, as a text, for which the worker is given the repositories of the work unit. -/
theorem batches_reach_workers (settings : Settings) {s : Store} (hs : s.Reached) {key : Key}
    {campaign : Campaign} (hcampaign : s.campaign? key = some campaign)
    (hactive : campaign.spec.suspended = false) (hdel : campaign.metadata.isDeleting = false)
    {repositories : List String} (hlength : repositories.length ≤ 0x10000000000000000)
    (now clock : Instant) :
    let stage : Stage := { store := s, repositories := [(key, repositories)] }
    let result := (healedPass settings key now stage clock).1
    let after := (healedPass settings key now stage clock).2.store
    (∃ action, result = .ok action) →
      ∃ (c : Campaign) (o : Object) (d : ConfigDocument) (batches : List Batch),
        after.campaign? key = some c ∧ after.find? (documentSlot campaign) = some o ∧
        Resource.decode o = .ok d ∧
        (Json.object d.baseConfig).same (.object campaign.spec.baseConfig) ∧
        d.batches = batches.map Dispatch.document ∧ c.status.batchCount = d.batches.length ∧
        (∀ i batch, batches[i]? = some batch → Dispatch.Assigns d i batch) ∧
        batches.flatten = repositories ∧
        (∀ i, d.batches.length ≤ i → Dispatch.merge (.object d.baseConfig) d.batches i =
          .error (.indexOutOfBounds i d.batches.length)) ∧
        ∀ k made, s.find? { kind := .workUnit, key := k } = none →
          after.find? { kind := .workUnit, key := k } = some made →
          ∃ (u : WorkUnit) (text : String) (i : Nat), Resource.decode made = .ok u ∧
            Keyed.find? Dispatch.indexVariable u.toExecution.spec.env = some text ∧
            CommandLine.readIndex? text.toList = some i ∧
            Dispatch.Assigns d i u.spec.repositories := by
  intro stage result after ⟨action, hok⟩
  have hprepared : Prepared key repositories stage :=
    .of_store hs hcampaign hactive repositories .epoch
  obtain ⟨units, batches, hbatches, hreadable, hadmitted⟩ :=
    admitted_of_ok hprepared settings now clock hcampaign hdel hok
  have hkey : campaign.key = key := hprepared.ready.key_eq hcampaign
  have hcut := Partition.cut_of_batches hbatches
  obtain ⟨version, hreported⟩ := hadmitted.reported
  obtain ⟨o, d, found, hdecode, hfresh⟩ := hadmitted.upToDate hreadable
  obtain ⟨hbase, hdocuments⟩ := upToDate_iff.1 hfresh
  rw [hkey] at hreported
  refine ⟨_, o, d, batches, hreported, found, hdecode, hbase, hdocuments, ?_,
    fun i batch hbatch => Dispatch.assigns hdocuments hbatch, hcut.flatten,
    fun i hi => Dispatch.merge_of_length_le _ hi, fun k made hnone hmade => ?_⟩
  · rw [hdocuments, List.length_map]
    rfl
  · obtain ⟨u, hu, hbatch⟩ := hadmitted.exists_unit hactive (.refl _) hnone hmade
    have hindex : u.spec.batchIndex < batches.length := (List.getElem?_eq_some_iff.1 hbatch).1
    have hsmall : u.spec.batchIndex < 0x10000000000000000 :=
      Nat.lt_of_lt_of_le hindex (Nat.le_trans hcut.length_le hlength)
    exact ⟨u, _, u.spec.batchIndex, hu, find?_index_env u, CommandLine.readIndex?_toString hsmall,
      Dispatch.assigns hdocuments hbatch⟩

/-- Of two work units one is created, and its worker is given the first repository. -/
theorem batches_reach_workers_sample :
    let stage : Stage :=
      { store := strangerStore, repositories := [(sampleCampaign.key, ["first", "second"])] }
    let after := (healedPass {} sampleCampaign.key .epoch stage .epoch).2.store
    let first : Slot := { kind := .workUnit, key := { space := "fleet", name := "sweep-batch-0" } }
    strangerStore.find? first = none ∧
      ∃ (made : Object) (u : WorkUnit) (text : String) (d : ConfigDocument) (i : Nat),
        after.find? first = some made ∧ Resource.decode made = .ok u ∧
        Keyed.find? Dispatch.indexVariable u.toExecution.spec.env = some text ∧
        CommandLine.readIndex? text.toList = some i ∧
        Dispatch.Assigns d i u.spec.repositories := by
  have hreached : strangerStore.Reached := ⟨_, rfl⟩
  have hsample : (strangerStore.campaign? sampleCampaign.key).any fun c =>
      !c.spec.suspended && !c.metadata.isDeleting := by decide +kernel
  obtain ⟨campaign, hcampaign, hcheck⟩ := Option.any_eq_true _ _ |>.1 hsample
  obtain ⟨hactive, hdel⟩ : campaign.spec.suspended = false ∧
      campaign.metadata.isDeleting = false := by simpa using hcheck
  have hok : ∃ action, (healedPass {} sampleCampaign.key .epoch
      { store := strangerStore, repositories := [(sampleCampaign.key, ["first", "second"])] }
      .epoch).1 = .ok action := exists_of_isOk (by decide +kernel)
  have hnone : strangerStore.find?
      { kind := .workUnit, key := { space := "fleet", name := "sweep-batch-0" } } = none := by
    decide +kernel
  have hthere : ((healedPass {} sampleCampaign.key .epoch
      { store := strangerStore, repositories := [(sampleCampaign.key, ["first", "second"])] }
      .epoch).2.store.find?
        { kind := .workUnit, key := { space := "fleet", name := "sweep-batch-0" } }).isSome := by
    decide +kernel
  obtain ⟨made, hmade⟩ := Option.isSome_iff_exists.1 hthere
  have hreach := batches_reach_workers {} hreached hcampaign hactive hdel
    (show ["first", "second"].length ≤ 0x10000000000000000 by decide) .epoch .epoch hok
  obtain ⟨c, o, d, batches, hrest⟩ := hreach
  obtain ⟨u, text, i, hu, htext, hread, hassigns⟩ :=
    hrest.2.2.2.2.2.2.2.2.2 _ made hnone hmade
  exact ⟨hnone, made, u, text, d, i, hmade, hu, htext, hread, hassigns⟩

/-- A campaign that something holds, so that it is still there when it has been deleted. -/
def sampleHeld : Campaign :=
  { sampleCampaign with metadata := { sampleCampaign.metadata with finalizers := ["hold"] } }

def heldStore : Store :=
  ({} : Store).serveAll
    [(.epoch, .create .campaign (Resource.encode sampleHeld)),
      (.epoch, .delete .campaign sampleHeld.key .background)]

/-- A pass over a campaign that is being deleted succeeds, and leaves no document. -/
theorem nothing_reaches_workers :
    let stage : Stage :=
      { store := heldStore, repositories := [(sampleHeld.key, ["first", "second"])] }
    let pass := healedPass {} sampleHeld.key .epoch stage .epoch
    heldStore.Reached ∧
      (∃ c, heldStore.campaign? sampleHeld.key = some c ∧ c.spec.suspended = false) ∧
      pass.1 = .ok .awaitChange ∧ pass.2.store.find? (documentSlot sampleHeld) = none := by
  intro stage pass
  have hsample : (heldStore.campaign? sampleHeld.key).any fun c => !c.spec.suspended := by
    decide +kernel
  obtain ⟨campaign, hcampaign, hcheck⟩ := Option.any_eq_true _ _ |>.1 hsample
  have hok : pass.1.toOption = some .awaitChange := by decide +kernel
  refine ⟨⟨_, rfl⟩, ⟨campaign, hcampaign, by simpa using hcheck⟩, ?_, by decide +kernel⟩
  cases hpass : pass.1 with
  | error e => rw [hpass] at hok; cases hok
  | ok action => rw [hpass] at hok; cases hok; rfl

end Admission
end CampaignControl
