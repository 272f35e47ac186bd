import CampaignControl.Proofs.Admission.Rejection

/-!
# Passes over campaigns with different reports

A pass does not depend on what has been reported on a campaign before. Two stores that hold the same
apart from versions, from what a store gives to new objects, and from what every report on the
campaign writes anew (`Admission.Twin`) stay so: whatever a pass over one of them comes to, however
it fails, a pass over the other one can come to the same (`Admission.Twin.of_lone`). A pass that
succeeds has done what a pass without faults over the other store does
(`Admission.Twin.matchesClean`).
-/

namespace CampaignControl

/-- A document can be read or not whatever a store has given to it. -/
theorem Store.isReadable_congr {s s' : Store} {slot : Slot}
    (h : (s'.find? slot).map Object.bare = (s.find? slot).map Object.bare) :
    s'.isReadable slot = s.isReadable slot := by
  unfold Store.isReadable
  cases found : s.find? slot with
  | none =>
    rw [found, Option.map_none, Option.map_eq_none_iff] at h
    rw [h]
  | some o =>
    rw [found, Option.map_some, Option.map_eq_some_iff] at h
    obtain ⟨o', found', hbare⟩ := h
    have hbody : o'.body = o.body := congrArg (·.body) hbare
    rw [found', Option.all_some, Option.all_some, Resource.decode_eq_map hbody]
    cases (Resource.decode o : Except StoreError ConfigDocument) <;> rfl

/-- A campaign without its version, and without the time since when its configuration has been
valid or has not. -/
def Campaign.undated (c : Campaign) : Campaign :=
  { c with
    metadata := { c.metadata with version := 0 }
    status := { c.status with
      conditions := c.status.conditions.map (Condition.undated Campaign.configurationValid) } }

namespace Admission

open Pass

variable {settings : Settings} {key : Key} {campaign c : Campaign} {e : Error}
  {now : Instant} {units units' : List WorkUnit} {batches : List Batch} {tried : List WorkUnit}
  {log : List Exchange} {a b s s' t t' : Store}

/-- How a document is brought up to date does not depend on what a store has given to it. -/
theorem bare_refreshed_congr {fresh : ConfigDocument} {before before' : Option Object}
    (h : before'.map Object.bare = before.map Object.bare) :
    (refreshed fresh before').bare = (refreshed fresh before).bare := by
  cases before with
  | none =>
    rw [Option.map_none, Option.map_eq_none_iff] at h
    rw [h]
  | some o =>
    rw [Option.map_some, Option.map_eq_some_iff] at h
    obtain ⟨o', rfl, hbare⟩ := h
    have hbody : o'.body = o.body := congrArg (·.body) hbare
    have hdecode' := Resource.decode_eq_map (α := ConfigDocument) hbody
    cases hdecode : (Resource.decode o : Except StoreError ConfigDocument) with
    | error e =>
      rw [hdecode] at hdecode'
      simp only [refreshed, hdecode, hdecode', Except.map]
      exact hbare
    | ok current =>
      rw [hdecode] at hdecode'
      replace hdecode' : (Resource.decode o' : Except StoreError ConfigDocument) =
        .ok { current with metadata := o'.metadata } := hdecode'
      have hmetadata := (metadata_refresh fresh current).trans
        (Resource.metadata_of_decode hdecode : current.metadata = o.metadata)
      cases hchange : refresh fresh current with
      | mk changed note =>
        rw [hchange] at hmetadata
        cases note with
        | none =>
          simpa only [refreshed, hdecode, hdecode', refresh_setMetadata, hchange] using hbare
        | some =>
          simp only [refreshed, hdecode, hdecode', refresh_setMetadata, hchange]
          have hbare' : o'.metadata.bare = changed.metadata.bare :=
            (congrArg (·.metadata) hbare).trans (congrArg Metadata.bare hmetadata.symm)
          exact congrArg (Object.mk · (Resource.body changed)) hbare'

/-! ## Reports -/

/-- Two reports differ at most in what every report on a pass writes anew. -/
structure Overwritten (first second : Campaign.Status) : Prop where
  lastAdmission : second.lastAdmission = first.lastAdmission
  conditions : ∀ new : Condition, new.type = Campaign.configurationValid →
    (new.set second.conditions).map (Condition.undated new.type) =
      (new.set first.conditions).map (Condition.undated new.type)

namespace Overwritten

variable {first second : Campaign.Status}

theorem refl (status : Campaign.Status) : Overwritten status status := ⟨rfl, fun _ _ => rfl⟩

/-- A rejection is among that. -/
theorem rejection (e : Error) (now : Instant) (status : Campaign.Status) :
    Overwritten status (rejection e now status) where
  lastAdmission := rfl
  conditions _ hnew := Condition.map_undated_set_set
    (show (validity .fails "InvalidConfiguration" e.message now).type = _ from hnew.symm) _

theorem report (h : Overwritten first second) (o : Outcome) (admittedAt : Option Instant)
    (now : Instant) :
    Overwritten (o.report admittedAt now first) (o.report admittedAt now second) where
  lastAdmission := by simp only [Outcome.report, h.lastAdmission]
  conditions new hnew := by
    have hold : (validity .holds "Valid" "" now).type = new.type := hnew.symm
    exact (Condition.map_undated_set_set hold _).trans
      ((h.conditions new hnew).trans (Condition.map_undated_set_set hold _).symm)

/-- After the same report nothing but a time tells which of them there was. -/
theorem undated_report (h : Overwritten first second) (campaign : Campaign) (o : Outcome)
    (admittedAt : Option Instant) (now : Instant) (version version' : Nat) :
    Campaign.undated { campaign with
        status := o.report admittedAt now second
        metadata := { campaign.metadata with version := version' } } =
      Campaign.undated { campaign with
        status := o.report admittedAt now first
        metadata := { campaign.metadata with version } } := by
  have hconditions := h.conditions (validity .holds "Valid" "" now) rfl
  replace hconditions : (o.report admittedAt now second).conditions.map
      (Condition.undated Campaign.configurationValid) =
    (o.report admittedAt now first).conditions.map
      (Condition.undated Campaign.configurationValid) := hconditions
  have hlast : (o.report admittedAt now second).lastAdmission =
    (o.report admittedAt now first).lastAdmission := by simp only [Outcome.report, h.lastAdmission]
  simp only [Campaign.undated, hconditions, hlast]
  rfl

end Overwritten

/-! ## Passes over a campaign whose policy is accepted -/

/-- What a pass comes to over a campaign whose policy is accepted. -/
theorem lone_tries {result : Except Error Action} (hs : s.Reached)
    (hcampaign : s.campaign? key = some campaign) (hdel : campaign.metadata.isDeleting = false)
    (hactive : campaign.spec.suspended = false) (haccepted : campaign.spec.policy.IsAccepted)
    (h : (reconcile settings key now).Lone s result log s') :
    (∃ e, result = .error e) ∧ s' = s ∨
    ∃ correlation units repositories batches n t rest,
      s.survey key repositories = .admits campaign units batches ∧ rest ⊆ log ∧
      Tries settings campaign correlation units batches now
        ((plan campaign units batches now).create.take n) s result rest t s' := by
  obtain rfl : campaign.key = key := Store.campaign_key_eq hs hcampaign
  cases lone_reconcile hs hcampaign hdel hactive h with
  | idle e => exact .inl ⟨⟨e, rfl⟩, rfl⟩
  | @discovers _ _ rest _ correlation units repositories hunits _ _ hsub hrest =>
    obtain ⟨batches, hbatches⟩ := Partition.batches_of_isAccepted haccepted repositories
    rw [afterDiscovery_of_ok hbatches] at hrest
    refine (lone_admitAll hs hcampaign hunits hrest).imp_right fun ⟨n, t, htries⟩ => ?_
    exact ⟨correlation, units, repositories, batches, n, t, rest, Store.survey_eq_admits.2
      ⟨hcampaign, hdel, hunits, hbatches, htries.readable⟩, hsub, htries⟩

/-- A pass can end before its report just as well. -/
theorem exists_unreported {result : Except Error Action} (hs : s.Reached)
    (hcampaign : s.campaign? key = some campaign) (hstays : campaign.metadata.isDeleting = false)
    (hactive : campaign.spec.suspended = false) (haccepted : campaign.spec.policy.IsAccepted)
    (h : (reconcile settings key now).Lone s result log s') :
    ∃ result log t, (reconcile settings key now).Lone s result log t ∧
      Store.AlikeBut { kind := .campaign, key } s' t ∧ t.campaign? key = s.campaign? key := by
  obtain rfl : campaign.key = key := Store.campaign_key_eq hs hcampaign
  obtain ⟨-, rfl⟩ | ⟨_, units, repositories, batches, n, t, rest, -, hsub, htries⟩ :=
    lone_tries hs hcampaign hstays hactive haccepted h
  · exact ⟨result, log, s', h, .refl .., rfl⟩
  · obtain ⟨x, hx, rfl⟩ := htries.passed
    obtain ⟨result', log', hlone⟩ := h.exists_of_mem (hsub hx)
    refine ⟨result', log', x.before, hlone, ?_, htries.untouched⟩
    rcases htries.ends with ⟨-, hsame⟩ | ⟨halike, -⟩
    · rw [hsame]
      exact .refl ..
    · exact halike.symm

/-- With the right limit a pass tries just these work units. -/
theorem exists_lone_of_survey {repositories : List String} (hs : s.Reached)
    (hactive : campaign.spec.suspended = false) (settings : Settings) (now : Instant)
    (hsurvey : s.survey campaign.key repositories = .admits campaign units batches) (n : Nat) :
    ∃ result log s', (reconcile settings campaign.key now).Lone s result log s' ∧
      Admitted campaign units batches now ((plan campaign units batches now).create.take n) s
        s' := by
  obtain ⟨hcampaign, -⟩ := Store.survey_eq_admits.1 hsurvey
  have hprepared := Prepared.of_store hs hcampaign hactive repositories .epoch
  obtain ⟨-, hsolo⟩ := hprepared.faultyPass settings now .epoch n
  let stage : Stage := { store := s, repositories := [(campaign.key, repositories)] }
  obtain ⟨log, hlone, -⟩ := Stage.lone (reconcile settings campaign.key now)
    (show Stage.rules { stage with
      clock := .epoch, faults := stage.faults.failCreationsAfter .workUnit n } = [] from rfl)
  have hleaves : Leaves campaign.key repositories now (some n) s
    (faultyPass settings campaign.key now stage .epoch n).2.store := hsolo.leaves
  unfold Leaves at hleaves
  rw [hsurvey] at hleaves
  exact ⟨_, log, _, hlone, hleaves⟩

/-! ## Two stores -/

/-- Two stores hold the same apart from what a store gives to new objects, from versions, and from
the time since when the configuration of the campaign at the key has been valid. -/
structure AgreeUndated (key : Key) (a b : Store) : Prop where
  objects : ∀ slot, slot ≠ { kind := .campaign, key } →
    (a.find? slot).map Object.bare = (b.find? slot).map Object.bare
  campaign : (a.campaign? key).map Campaign.undated = (b.campaign? key).map Campaign.undated

/-- A pass has come to an action, has made known and has left what a pass without faults over
another store does, with the same repositories. -/
def MatchesClean (settings : Settings) (key : Key) (now clock : Instant) (a : Store)
    (action : Action) (log : List Exchange) (t' : Store) : Prop :=
  ∃ repositories, discovered log = [repositories] ∧
    let clean := healedPass settings key now
      { store := a, repositories := [(key, repositories)] } clock
    clean.1 = .ok action ∧
      (∃ correlation, published log = clean.2.events.map fun event => { event with correlation }) ∧
      AgreeUndated key clean.2.store t'

/-- Two stores hold the same apart from what a store gives to new objects, from versions, and from
what every report on the campaign writes anew. -/
structure Twin (campaign : Campaign) (a b : Store) : Prop where
  stored : a.campaign? campaign.key = some campaign
  reported : ∃ status version, Overwritten campaign.status status ∧
    b.campaign? campaign.key = some { campaign with
      status, metadata := { campaign.metadata with version } }
  objects : ∀ slot, slot ≠ { kind := .campaign, key := campaign.key } →
    (b.find? slot).map Object.bare = (a.find? slot).map Object.bare
  listed : ∀ units' : List WorkUnit,
    (b.list .workUnit (unitFilter campaign)).mapM Resource.decode = .ok units' →
    ∃ units : List WorkUnit,
      (a.list .workUnit (unitFilter campaign)).mapM Resource.decode = .ok units ∧
      (units'.map fun u => (u.spec, u.status)).Perm (units.map fun u => (u.spec, u.status))

/-- Two campaigns in a place, in stores that are otherwise alike. -/
theorem Twin.of_alike {status : Campaign.Status} {version : Nat}
    (halike : Store.AlikeBut { kind := .campaign, key := campaign.key } a b)
    (hstored : a.campaign? campaign.key = some campaign)
    (hoverwritten : Overwritten campaign.status status)
    (hreported : b.campaign? campaign.key = some { campaign with
      status, metadata := { campaign.metadata with version } }) : Twin campaign a b where
  stored := hstored
  reported := ⟨status, version, hoverwritten, hreported⟩
  objects slot hne := by rw [halike.find? slot hne]
  listed units' hunits' := by
    rw [halike.list .workUnit _ (nofun : Kind.workUnit ≠ .campaign)] at hunits'
    exact ⟨units', hunits', .rfl⟩

/-- What is left does not depend on the report on the campaign. -/
theorem Furnished.of_report {status : Campaign.Status} {version : Nat}
    (h : Furnished { campaign with status, metadata := { campaign.metadata with version } } units
      batches tried s t) : Furnished campaign units batches tried s t :=
  ⟨h.document, h.created, h.other, h.listed⟩

/-- Nor does the plan. -/
theorem create_of_report {status : Campaign.Status} {version : Nat}
    (hperm : (units'.map fun u => (u.spec, u.status)).Perm
      (units.map fun u => (u.spec, u.status))) :
    (plan { campaign with status, metadata := { campaign.metadata with version } } units' batches
      now).create = (plan campaign units batches now).create :=
  create_congr hperm campaign batches now

/-- Work units are not in the place of a campaign. -/
theorem slot_ne (u : WorkUnit) (key : Key) : Resource.slot u ≠ { kind := .campaign, key } :=
  Slot.ne_of_kind_ne (nofun : Kind.workUnit ≠ .campaign)

namespace Twin

variable {repositories : List String}

theorem isNone_find? (h : Twin campaign a b) {slot : Slot}
    (hne : slot ≠ { kind := .campaign, key := campaign.key }) :
    (b.find? slot).isNone = (a.find? slot).isNone := by
  have hsame := congrArg Option.isNone (h.objects slot hne)
  rwa [Option.isNone_map, Option.isNone_map] at hsame

theorem missing_eq (h : Twin campaign a b) (units : List WorkUnit) :
    b.missing units = a.missing units :=
  List.filter_congr fun u _ => h.isNone_find? (slot_ne u campaign.key)

theorem map_admission_eq (h : Twin campaign a b) (units : List WorkUnit) (correlation : Uid) :
    units.map (admission campaign correlation b) = units.map (admission campaign correlation a) :=
  List.map_congr_left fun u _ => by
    rw [admission, h.isNone_find? (slot_ne u campaign.key)]
    rfl

/-- What a pass reads is the same in both stores, apart from the report. -/
theorem survey_eq_admits (h : Twin campaign a b) (hstays : campaign.metadata.isDeleting = false)
    {status : Campaign.Status} {version : Nat}
    (hsurvey : b.survey campaign.key repositories = .admits { campaign with
      status, metadata := { campaign.metadata with version } } units' batches) :
    ∃ units, a.survey campaign.key repositories = .admits campaign units batches ∧
      (units'.map fun u => (u.spec, u.status)).Perm (units.map fun u => (u.spec, u.status)) := by
  obtain ⟨-, -, hunits', hbatches, hreadable⟩ := Store.survey_eq_admits.1 hsurvey
  obtain ⟨units, hunits, hperm⟩ := h.listed units' hunits'
  replace hreadable : b.isReadable (documentSlot campaign) := hreadable
  have hne : documentSlot campaign ≠ { kind := .campaign, key := campaign.key } :=
    Slot.ne_of_kind_ne (nofun : Kind.configDocument ≠ .campaign)
  rw [Store.isReadable_congr (h.objects _ hne)] at hreadable
  exact ⟨units, Store.survey_eq_admits.2 ⟨h.stored, hstays, hunits, hbatches, hreadable⟩, hperm⟩

/-- Passes that have tried the same work units in both stores leave the same objects. -/
theorem objects_of_furnished (h : Twin campaign a b)
    (hfirst : Furnished campaign units batches tried a t)
    (hsecond : Furnished campaign units' batches tried b t') {slot : Slot}
    (hne : slot ≠ { kind := .campaign, key := campaign.key }) :
    (t'.find? slot).map Object.bare = (t.find? slot).map Object.bare := by
  by_cases hdocument : slot = documentSlot campaign
  · subst hdocument
    obtain ⟨o, found, hbare⟩ := hfirst.document
    obtain ⟨o', found', hbare'⟩ := hsecond.document
    rw [found, found', Option.map_some, Option.map_some, hbare, hbare',
      bare_refreshed_congr (h.objects _ hne)]
  by_cases hmade : ∃ u ∈ a.missing tried, Resource.slot u = slot
  · obtain ⟨u, hu, rfl⟩ := hmade
    obtain ⟨o, found, hbare⟩ := hfirst.created u hu
    obtain ⟨o', found', hbare'⟩ := hsecond.created u (h.missing_eq tried ▸ hu)
    rw [found, found', Option.map_some, Option.map_some, hbare, hbare']
  · have hnot : ∀ u ∈ a.missing tried, Resource.slot u ≠ slot :=
      fun u hu heq => hmade ⟨u, hu, heq⟩
    rw [hfirst.other slot hne hdocument hnot,
      hsecond.other slot hne hdocument (h.missing_eq tried ▸ hnot), h.objects slot hne]

/-- Passes that have tried the same work units in both stores leave twins, if the reports on them
are alike. -/
theorem of_furnished (h : Twin campaign a b)
    (hperm : (units'.map fun u => (u.spec, u.status)).Perm (units.map fun u => (u.spec, u.status)))
    (hfirst : Furnished campaign units batches tried a t)
    (hsecond : Furnished campaign units' batches tried b t') {first second : Campaign.Status}
    {version version' : Nat} (hoverwritten : Overwritten first second)
    (hstored : t.campaign? campaign.key = some { campaign with
      status := first, metadata := { campaign.metadata with version } })
    (hstored' : t'.campaign? campaign.key = some { campaign with
      status := second, metadata := { campaign.metadata with version := version' } }) :
    Twin { campaign with status := first, metadata := { campaign.metadata with version } } t
      t' where
  stored := hstored
  reported := ⟨second, version', hoverwritten, hstored'⟩
  objects slot hne := h.objects_of_furnished hfirst hsecond hne
  listed made' hmade' := by
    obtain ⟨made, news, hmade, hlisted, hnews⟩ := hfirst.listed
    obtain ⟨_, news', heq, hlisted', hnews'⟩ := hsecond.listed
    cases heq.symm.trans hmade'
    refine ⟨made, hmade, ?_⟩
    rw [h.missing_eq] at hnews'
    have hperms := (hlisted'.map fun u => (u.spec, u.status)).trans <| .trans ?_
      (hlisted.map fun u => (u.spec, u.status)).symm
    · exact hperms
    · rw [List.map_append, List.map_append]
      exact hperm.append (hnews'.trans hnews.symm)

/-- Whatever a pass over the second store comes to, a pass over the first one can come to the
same. -/
theorem of_lone {result : Except Error Action} (h : Twin campaign a b) (ha : a.Reached)
    (hb : b.Reached) (hstays : campaign.metadata.isDeleting = false)
    (hactive : campaign.spec.suspended = false) (haccepted : campaign.spec.policy.IsAccepted)
    (hlone : (reconcile settings campaign.key now).Lone b result log t') :
    ∃ t status version, Passes campaign.key a t ∧ Twin { campaign with
      status, metadata := { campaign.metadata with version } } t t' := by
  obtain ⟨status, version, hoverwritten, hreported⟩ := h.reported
  obtain ⟨-, rfl⟩ | ⟨_, units', repositories, batches, n, t₀, rest, hsurvey, -, htries⟩ :=
    lone_tries hb hreported hstays hactive haccepted hlone
  · exact ⟨a, campaign.status, campaign.metadata.version, .refl, h⟩
  obtain ⟨units, hsurvey', hperm⟩ := h.survey_eq_admits hstays hsurvey
  obtain ⟨result', log', t, hlone', hadmitted⟩ :=
    exists_lone_of_survey ha hactive settings now hsurvey' n
  rw [create_of_report hperm] at htries
  rcases htries.ends with ⟨-, rfl⟩ | ⟨halike, hadmitted'⟩
  · -- the report has failed, and it may fail as well in the other pass
    obtain ⟨result₀, log₀, t₁, hlone₀, halike₀, huntouched⟩ :=
      exists_unreported ha h.stored hstays hactive haccepted hlone'
    exact ⟨t₁, campaign.status, campaign.metadata.version, .single ⟨_, _, _, _, hlone₀⟩,
      h.of_furnished hperm (hadmitted.furnished halike₀) htries.furnished.of_report hoverwritten
        (huntouched.trans h.stored) (htries.untouched.trans hreported)⟩
  · obtain ⟨version₁, hstored₁⟩ := hadmitted.reported
    obtain ⟨version₂, hstored₂⟩ := hadmitted'.reported
    rw [h.missing_eq, liveCount_congr hperm] at hstored₂
    exact ⟨t, _, version₁, .single ⟨_, _, _, _, hlone'⟩, h.of_furnished hperm
      (hadmitted.furnished (.refl ..)) (hadmitted'.furnished (.refl ..)).of_report
      (hoverwritten.report ..) hstored₁ hstored₂⟩

/-- Whatever passes over the second store come to, passes over the first one can come to the
same. -/
theorem of_passes (h : Twin campaign a b) (ha : a.Reached) (hb : b.Reached)
    (hstays : campaign.metadata.isDeleting = false) (hactive : campaign.spec.suspended = false)
    (haccepted : campaign.spec.policy.IsAccepted) (hpasses : Passes campaign.key b t') :
    ∃ t status version, Passes campaign.key a t ∧ Twin { campaign with
      status, metadata := { campaign.metadata with version } } t t' := by
  induction hpasses with
  | refl => exact ⟨a, campaign.status, campaign.metadata.version, .refl, h⟩
  | tail hbefore hpass ih =>
    obtain ⟨settings, now, result, log, hlone⟩ := hpass
    obtain ⟨t, status, version, hpasses, htwin⟩ := ih
    obtain ⟨t₁, status₁, version₁, hpasses₁, htwin₁⟩ := htwin.of_lone (Passes.reached hpasses ha)
      (Passes.reached hbefore hb) hstays hactive haccepted hlone
    exact ⟨t₁, status₁, version₁, hpasses.trans hpasses₁, htwin₁⟩

/-- A pass over the second store that succeeds has done what a pass without faults over the first
one does. -/
theorem matchesClean {action : Action} (h : Twin campaign a b) (ha : a.Reached) (hb : b.Reached)
    (hstays : campaign.metadata.isDeleting = false) (hactive : campaign.spec.suspended = false)
    (hlone : (reconcile settings campaign.key now).Lone b (.ok action) log t') (clock : Instant) :
    MatchesClean settings campaign.key now clock a action log t' := by
  obtain ⟨status, version, hoverwritten, hreported⟩ := h.reported
  obtain ⟨correlation, units', repositories, batches, hsurvey, hdiscovered, hadmitted', htold,
    haction⟩ := lone_admits hb hreported hstays hactive hlone
  obtain ⟨units, hsurvey', hperm⟩ := h.survey_eq_admits hstays hsurvey
  -- the pass over the first store
  let scene : Scene := { store := a, repositories := [(campaign.key, repositories)], clock }
  have hrepositories : (Keyed.find? campaign.key scene.repositories).getD [] = repositories := by
    simp [scene, Keyed.find?]
  rw [← hrepositories] at hsurvey'
  obtain ⟨result, after, hpass, hadmitted, hevents, hresult⟩ :=
    perform_pass_admits settings now (show scene.store.Reached from ha) hactive rfl hsurvey'
  obtain ⟨hclean, hscene⟩ :=
    healedPass_scene_of_store settings a campaign.key repositories now clock
  rw [hpass] at hclean hscene
  have hstore : (healedPass settings campaign.key now
    { store := a, repositories := [(campaign.key, repositories)] } clock).2.store = after.store :=
      congrArg Scene.store hscene
  have hannounced : (healedPass settings campaign.key now
    { store := a, repositories := [(campaign.key, repositories)] } clock).2.events =
      (plan campaign units batches now).create.map (admission campaign (.issued 1) a) :=
    (congrArg Scene.events hscene).trans hevents
  rw [if_pos (show (within scene.budget (plan campaign units batches now).create).length =
    (plan campaign units batches now).create.length from rfl)] at hresult
  -- both have tried the same
  rw [create_of_report hperm] at hadmitted' htold haction
  rw [h.missing_eq, liveCount_congr hperm] at haction
  refine ⟨repositories, hdiscovered, ?_, ⟨correlation, ?_⟩, fun slot hne => ?_, ?_⟩
  · rw [hclean, hresult, haction]
    rfl
  · rw [hannounced, List.map_map]
    exact htold.trans (h.map_admission_eq _ correlation)
  · rw [hstore]
    exact (h.objects_of_furnished (hadmitted.furnished (.refl ..))
      (hadmitted'.furnished (.refl ..)).of_report hne).symm
  · obtain ⟨version₁, hstored₁⟩ := hadmitted.reported
    obtain ⟨version₂, hstored₂⟩ := hadmitted'.reported
    rw [h.missing_eq, liveCount_congr hperm] at hstored₂
    replace hstored₂ : t'.campaign? campaign.key = _ := hstored₂
    rw [hstore, hstored₁, hstored₂, Option.map_some, Option.map_some]
    exact congrArg some (hoverwritten.undated_report ..).symm

end Twin
end Admission
end CampaignControl
