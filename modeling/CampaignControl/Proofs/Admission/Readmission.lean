import CampaignControl.Proofs.Admission.Twins

/-!
# Admission after a rejection

A campaign that has been rejected is admitted like one that has not, once its policy has been
changed to one that is accepted. A rejection leaves nothing but a report, so that the store is a
twin of what it would be without the rejection, and passes go the same way in both
(`Admission.Unfit.readmits`). All that tells of the rejection is the time since when the
configuration has been valid.
-/

namespace CampaignControl

/-! ## A change of the policy -/

namespace Store

variable {s : Store} {key : Key} {campaign : Campaign}

/-- The store after the policy of the campaign at a key has been changed. -/
def withPolicy (s : Store) (clock : Instant) (key : Key) (policy : SchedulingPolicy) : Store :=
  match s.campaign? key with
  | none => s
  | some c =>
    (s.update clock .campaign (Resource.encode { c with spec := { c.spec with policy } })).2

theorem Reached.withPolicy (hs : s.Reached) (clock : Instant) (key : Key)
    (policy : SchedulingPolicy) : (s.withPolicy clock key policy).Reached := by
  unfold Store.withPolicy
  split
  · exact hs
  · exact hs.serve clock (.update .campaign _)

theorem withPolicy_replaces (hs : s.Reached) (hcampaign : s.campaign? key = some campaign)
    (clock : Instant) (policy : SchedulingPolicy) :
    s.Replaces { campaign with spec := { campaign.spec with policy } }
      (s.withPolicy clock key policy) := by
  obtain ⟨o, found, hdecode⟩ := campaign?_eq_some.1 hcampaign
  have hmetadata : campaign.metadata = o.metadata := Resource.metadata_of_decode hdecode
  obtain rfl : campaign.key = key := campaign_key_eq hs hcampaign
  let changed : Campaign := { campaign with spec := { campaign.spec with policy } }
  have hupdate := update_of_held clock found (show (Resource.encode changed).key = _ from rfl)
    (congrArg Metadata.version hmetadata) fun hdel => by
      rw [show (Resource.encode changed).metadata = o.metadata from hmetadata]
      exact hs.intact.held _ _ found hdel
  have hstore : s.withPolicy clock campaign.key policy =
      s.withRevised { kind := .campaign, key := campaign.key } o (Resource.encode changed) := by
    unfold withPolicy
    rw [hcampaign]
    exact congrArg Prod.snd hupdate
  rw [hstore]
  refine ⟨.withRevised .., rfl, s.revision + 1, ?_⟩
  exact Eq.trans (campaign?_withRevised hdecode (show changed.metadata = _ from rfl)) rfl

end Store

namespace Admission

open Pass

variable {settings : Settings} {key : Key} {campaign : Campaign} {e : Error} {now : Instant}
  {log : List Exchange} {a b s s' t' : Store}

/-! ## Two stores after a change of the policy -/

/-- What rejections and a change of the policy leave. -/
theorem Unfit.withPolicy (h : Unfit campaign.key campaign e s) (hpasses : Passes campaign.key s s')
    (clock : Instant) (policy : SchedulingPolicy) :
    Store.AlikeBut { kind := .campaign, key := campaign.key } s
        (s'.withPolicy clock campaign.key policy) ∧
      ∃ status version, Overwritten campaign.status status ∧
        (s'.withPolicy clock campaign.key policy).campaign? campaign.key = some { campaign with
          spec := { campaign.spec with policy }, status
          metadata := { campaign.metadata with version } } := by
  have hs' : s'.Reached := Passes.reached hpasses h.reached
  rcases h.passes hpasses with rfl | ⟨now, hrejected⟩
  · have hchanged := Store.withPolicy_replaces hs' h.found clock policy
    obtain ⟨version, hstored⟩ := hchanged.stored
    exact ⟨hchanged.alike, campaign.status, version, .refl _, hstored⟩
  · obtain ⟨_, hreported⟩ := hrejected.stored
    have hchanged := Store.withPolicy_replaces hs' hreported clock policy
    obtain ⟨version, hstored⟩ := hchanged.stored
    exact ⟨hrejected.alike.trans hchanged.alike, _, version, .rejection e now campaign.status,
      hstored⟩

/-- A store and what rejections have made of it are twins after a change of the policy in both. -/
theorem Unfit.twin_withPolicy (h : Unfit campaign.key campaign e s)
    (hpasses : Passes campaign.key s s') (clock clock' : Instant) (policy : SchedulingPolicy) :
    ∃ version, Twin { campaign with
        spec := { campaign.spec with policy }, metadata := { campaign.metadata with version } }
      (s.withPolicy clock campaign.key policy) (s'.withPolicy clock' campaign.key policy) := by
  have hfirst := Store.withPolicy_replaces h.reached h.found clock policy
  obtain ⟨version, hstored⟩ := hfirst.stored
  obtain ⟨halike, status, version', hoverwritten, hstored'⟩ := h.withPolicy hpasses clock' policy
  exact ⟨version, .of_alike (hfirst.alike.symm.trans halike) hstored hoverwritten hstored'⟩

/-- What can be read does not depend on the campaign that is stored. -/
theorem Legible.of_alike (h : Legible campaign a)
    (halike : Store.AlikeBut { kind := .campaign, key } a b) : Legible campaign b where
  units := by
    rw [halike.list .workUnit _ (nofun : Kind.workUnit ≠ .campaign)]
    exact h.units
  document := by
    have hne : documentSlot campaign ≠ { kind := .campaign, key } :=
      Slot.ne_of_kind_ne (nofun : Kind.configDocument ≠ .campaign)
    rw [halike.isReadable_eq hne]
    exact h.document

/-- A pass without faults succeeds if the policy is accepted and all can be read. -/
theorem healedPass_ok (hs : s.Reached) (hcampaign : s.campaign? key = some campaign)
    (hstays : campaign.metadata.isDeleting = false) (hactive : campaign.spec.suspended = false)
    (haccepted : campaign.spec.policy.IsAccepted) (hlegible : Legible campaign s)
    (settings : Settings) (repositories : List String) (now clock : Instant) :
    ∃ action, (healedPass settings key now
      { store := s, repositories := [(key, repositories)] } clock).1 = .ok action := by
  obtain rfl : campaign.key = key := Store.campaign_key_eq hs hcampaign
  obtain ⟨⟨units, hunits⟩, hreadable⟩ := hlegible
  let scene : Scene := { store := s, repositories := [(campaign.key, repositories)], clock }
  have hs' : scene.store.Reached := hs
  obtain ⟨batches, hbatches⟩ := Partition.batches_of_isAccepted haccepted
    ((Keyed.find? campaign.key scene.repositories).getD [])
  obtain ⟨result, after, hpass, -, -, hresult⟩ := perform_pass_admits settings now hs' hactive rfl
    (Store.survey_eq_admits.2 ⟨hcampaign, hstays, hunits, hbatches, hreadable⟩)
  rw [if_pos (show (within scene.budget (plan campaign units batches now).create).length =
    (plan campaign units batches now).create.length from rfl)] at hresult
  exact ⟨_, (healedPass_scene_of_store ..).1.trans ((congrArg Prod.fst hpass).trans hresult)⟩

/-! ## Rejection and readmission -/

/-- How a campaign is admitted whose policy has been changed after passes have rejected it. -/
theorem Unfit.readmits (h : Unfit key campaign e s) (hpasses : Passes key s s')
    {policy : SchedulingPolicy} (haccepted : policy.IsAccepted) (clock : Instant) :
    let changed := s'.withPolicy clock key policy
    (Legible campaign s → ∀ settings repositories now later, ∃ action,
      (Admission.healedPass settings key now
        { store := changed, repositories := [(key, repositories)] } later).1 = .ok action) ∧
    (∀ settings now action log t', (reconcile settings key now).Lone changed (.ok action) log t' →
      ∀ clock' later,
        MatchesClean settings key now later (s.withPolicy clock' key policy) action log t') ∧
    ∀ b, Passes key changed b → ∀ clock', ∃ a, Passes key (s.withPolicy clock' key policy) a ∧
      ∀ settings now action log t', (reconcile settings key now).Lone b (.ok action) log t' →
        (∃ c, t'.campaign? key = some c ∧ c.status.validity? = some .holds) ∧
        ∀ later, MatchesClean settings key now later a action log t' := by
  intro changed
  obtain rfl : campaign.key = key := Store.campaign_key_eq h.reached h.found
  have hs' : s'.Reached := Passes.reached hpasses h.reached
  have hreached : changed.Reached := hs'.withPolicy ..
  refine ⟨fun hlegible settings repositories now later => ?_,
    fun settings now action log t' hlone clock' later => ?_, fun b hpasses' clock' => ?_⟩
  · obtain ⟨halike, status, version, -, hstored⟩ := h.withPolicy hpasses clock policy
    obtain ⟨hunits, hdocument⟩ := hlegible.of_alike halike
    exact healedPass_ok hreached hstored h.stays h.active haccepted ⟨hunits, hdocument⟩ settings
      repositories now later
  · obtain ⟨version, htwin⟩ := h.twin_withPolicy hpasses clock' clock policy
    exact htwin.matchesClean (h.reached.withPolicy ..) hreached h.stays h.active hlone later
  · obtain ⟨version, htwin⟩ := h.twin_withPolicy hpasses clock' clock policy
    obtain ⟨a, status, version', hpasses₁, htwin₁⟩ := htwin.of_passes (h.reached.withPolicy ..)
      hreached h.stays h.active haccepted hpasses'
    refine ⟨a, hpasses₁, fun settings now action log t' hlone => ⟨?_, fun later => ?_⟩⟩
    · obtain ⟨_, _, -, hstored⟩ := htwin₁.reported
      obtain ⟨_, units, repositories, batches, -, -, hadmitted, -, -⟩ :=
        lone_admits (Passes.reached hpasses' hreached) hstored h.stays h.active hlone
      obtain ⟨_, hreported⟩ := hadmitted.reported
      exact ⟨_, hreported, validity?_report ..⟩
    · exact htwin₁.matchesClean (Passes.reached hpasses₁ (h.reached.withPolicy ..))
        (Passes.reached hpasses' hreached) h.stays h.active hlone later

/-- **A rejection is only reported.** A policy that does not let batches be cut for some
repositories is rejected for all of them, with an error that is not retried. Let a pass come to the
campaign, whatever faults it meets. Unless it fails before it knows the repositories, and then it
does nothing, it fails with this error, says why once and writes the report on the campaign or
nothing at all. Without faults it always gets there if it can list the work units. Of passes one
after the other one at most changes the store, and after a pass without faults none does. Conditions
of other types stay as they are.

Once the policy has been changed to one that is accepted, a pass without faults succeeds if all can
be read. The next pass that succeeds leaves the configuration valid, and does what a pass without
faults would do had there been no rejection: its action and what it makes known are the same, and so
is the store but for versions, what a store gives to new objects, and the time since when the
configuration has been valid. If passes have failed in between, that is so as if there had been no
rejection before them either. -/
theorem rejection_only_reports (hs : s.Reached) (hcampaign : s.campaign? key = some campaign)
    (hstays : campaign.metadata.isDeleting = false) (hactive : campaign.spec.suspended = false)
    {repositories : List String}
    (hrejects : Partition.batches repositories campaign.spec.policy = .error e) :
    (e = .invalidBatchSize campaign.spec.policy.strategy campaign.spec.policy.batchSize ∧
      e.isFatal) ∧
    (∀ settings now result log s', (reconcile settings key now).Lone s result log s' →
      (Silent log ∧ s' = s ∧ ∃ e', result = .error e') ∨
        (∃ repositories, discovered log = [repositories]) ∧
          Dismisses campaign e now s result log s') ∧
    (∀ settings now clock repositories,
      (∃ units : List WorkUnit,
        (s.list .workUnit (unitFilter campaign)).mapM Resource.decode = .ok units) →
      let outcome := healedPass settings key now
        { store := s, repositories := [(key, repositories)] } clock
      outcome.1 = .error e ∧ outcome.2.events = [rejectionNotice campaign (.issued 1) e] ∧
        Rejected campaign e now s outcome.2.store ∧
        ∀ s'', Passes key outcome.2.store s'' → s'' = outcome.2.store) ∧
    (∀ s' s'', Passes key s s' → Passes key s' s'' → s' = s ∨ s'' = s') ∧
    (∀ now, (rejection e now campaign.status).conditions.filter
        (·.type ≠ Campaign.configurationValid) =
      campaign.status.conditions.filter (·.type ≠ Campaign.configurationValid)) ∧
    ∀ s', Passes key s s' → ∀ policy clock, policy.IsAccepted →
      let changed := s'.withPolicy clock key policy
      (Legible campaign s → ∀ settings repositories now later, ∃ action,
        (healedPass settings key now
          { store := changed, repositories := [(key, repositories)] } later).1 = .ok action) ∧
      (∀ settings now action log t',
        (reconcile settings key now).Lone changed (.ok action) log t' → ∀ clock' later,
          MatchesClean settings key now later (s.withPolicy clock' key policy) action log t') ∧
      ∀ b, Passes key changed b → ∀ clock', ∃ a,
        Passes key (s.withPolicy clock' key policy) a ∧
        ∀ settings now action log t', (reconcile settings key now).Lone b (.ok action) log t' →
          (∃ c, t'.campaign? key = some c ∧ c.status.validity? = some .holds) ∧
          ∀ later, MatchesClean settings key now later a action log t' := by
  obtain ⟨hnot, herror⟩ := Partition.batches_eq_error_iff.1 hrejects
  have hunfit : Unfit key campaign e s :=
    ⟨hs, hcampaign, hstays, hactive, fun _ => Partition.batches_eq_error_iff.2 ⟨hnot, herror⟩⟩
  exact ⟨⟨herror, herror ▸ rfl⟩, fun _ _ _ _ _ hlone => hunfit.lone_reconcile hlone,
    fun settings now clock repositories hunits =>
      hunfit.healedPass settings now clock repositories hunits,
    fun _ _ hpasses hpasses' => hunfit.eq_or_eq_of_passes hpasses hpasses',
    fun now => Condition.filter_set (validity .fails "InvalidConfiguration" e.message now) _,
    fun _ hpasses _ clock haccepted => hunfit.readmits hpasses haccepted clock⟩

/-- A policy that is not accepted is rejected, reported once and then replaced. -/
theorem rejection_only_reports_sample :
    let first := healedPass {} sampleCampaign.key .epoch
      { store := sizelessStore false, repositories := [(sampleCampaign.key, ["first"])] } .epoch
    let changed := first.2.store.withPolicy .epoch sampleCampaign.key sampleCampaign.spec.policy
    first.1 = .error (.invalidBatchSize .fixedBatchSize 0) ∧ first.2.events.length = 1 ∧
      first.2.store ≠ sizelessStore false ∧
      (∀ s'', Passes sampleCampaign.key first.2.store s'' → s'' = first.2.store) ∧
      ∀ repositories, ∃ action, (healedPass {} sampleCampaign.key .epoch
        { store := changed, repositories := [(sampleCampaign.key, repositories)] } .epoch).1 =
          .ok action := by
  intro first changed
  have h : ((sizelessStore false).campaign? sampleCampaign.key).any fun c =>
      c.spec = { policy := sampleSizeless } ∧ c.metadata.isDeleting = false ∧
        ((sizelessStore false).list .workUnit (unitFilter c)).isEmpty ∧
        (sizelessStore false).isReadable (documentSlot c) := by
    decide +kernel
  obtain ⟨campaign, hcampaign, hcheck⟩ := Option.any_eq_true _ _ |>.1 h
  obtain ⟨hspec, hstays, hempty, hreadable⟩ := of_decide_eq_true hcheck
  have hunits : ((sizelessStore false).list .workUnit (unitFilter campaign)).mapM Resource.decode =
      (.ok [] : Except StoreError (List WorkUnit)) := by
    rw [List.isEmpty_iff.1 hempty]
    rfl
  have hrejects : Partition.batches ["first"] campaign.spec.policy =
      .error (.invalidBatchSize .fixedBatchSize 0) := by
    rw [hspec]
    rfl
  obtain ⟨-, -, hfirst, -, -, hreadmits⟩ := rejection_only_reports ⟨_, rfl⟩ hcampaign hstays
    (by rw [hspec]) hrejects
  obtain ⟨hresult, hevents, -, hrepeats⟩ := hfirst {} .epoch .epoch ["first"] ⟨[], hunits⟩
  let stage : Stage :=
    { store := sizelessStore false, repositories := [(sampleCampaign.key, ["first"])] }
  obtain ⟨log, hlone, -⟩ := Stage.lone (reconcile {} sampleCampaign.key .epoch)
    (show stage.rules = [] from rfl)
  have hpasses : Passes sampleCampaign.key (sizelessStore false) first.2.store :=
    .single ⟨_, _, _, log, hlone⟩
  obtain ⟨hadmits, -⟩ := hreadmits first.2.store hpasses sampleCampaign.spec.policy .epoch
    (by decide)
  exact ⟨hresult, congrArg List.length hevents, by decide +kernel, hrepeats, fun repositories =>
    hadmits ⟨⟨[], hunits⟩, hreadable⟩ {} repositories .epoch .epoch⟩

/-- A campaign that is being deleted and has a policy that is not accepted. -/
def leavingStore : Store :=
  ({} : Store).serveAll [
    (.epoch, .create .campaign (Resource.encode { sampleCampaign with
      metadata := { sampleCampaign.metadata with finalizers := ["hold"] }
      spec := { policy := sampleSizeless } })),
    (.epoch, .delete .campaign sampleCampaign.key .background)]

/-- **Not every pass rejects, and not every repetition leaves the store as it is.** A campaign that
is being deleted is not looked at. And if the report fails, the next pass makes it. -/
theorem rejection_passed_over_or_late :
    (leavingStore.Reached ∧
      (leavingStore.campaign? sampleCampaign.key).any (fun c =>
        !c.spec.suspended && (Partition.batches ["first"] c.spec.policy).toOption.isNone) ∧
      ((healedPass {} sampleCampaign.key .epoch
        { store := leavingStore, repositories := [(sampleCampaign.key, ["first"])] }
        .epoch).1.toOption = some .awaitChange)) ∧
    let stage : Stage :=
      { store := sizelessStore false
        faults := { conflicts := [(.campaign, 5)] }
        repositories := [(sampleCampaign.key, ["first"])] }
    let first := stage.run (reconcile {} sampleCampaign.key .epoch)
    let second := first.2.run (reconcile {} sampleCampaign.key .epoch)
    (sizelessStore false).Reached ∧
      first.1 = .error (.invalidBatchSize .fixedBatchSize 0) ∧
      first.2.store = sizelessStore false ∧
      second.1 = .error (.invalidBatchSize .fixedBatchSize 0) ∧
      second.2.store ≠ first.2.store := by
  exact ⟨⟨⟨_, rfl⟩, by decide +kernel, by decide +kernel⟩, ⟨_, rfl⟩, by decide +kernel,
    by decide +kernel, by decide +kernel, by decide +kernel⟩

end Admission
end CampaignControl
