import CampaignControl.Proofs.Admission.Solo

/-!
# Partial admission

A pass that could not create all the work units of its plan leaves the rest of the plan to the
next one. What is left to the next pass is exactly what the first one has not created
(`Admission.Admitted.rest`), so a partial pass and a full one after it leave what a single full
pass leaves (`Admission.Leaves.trans`), and so does any number of partial passes with a full one at
the end (`Admission.partial_admission_recovers`).
-/

namespace CampaignControl

/-- A campaign without what a store gives to a new object, and without its version. -/
def Campaign.bare (c : Campaign) : Campaign := { c with metadata := c.metadata.bare }

namespace Admission

variable {campaign c₁ : Campaign} {units units₁ tried news : List WorkUnit} {batches : List Batch}
  {now : Instant} {s s₁ s₂ : Store} {key : Key} {repositories : List String}
  {budget : Option Nat}

/-! ## Reports on reports -/

/-- The second one of two reports takes the place of the first one, apart from the time of the
last admission. -/
theorem report_report (o₁ o₂ : Outcome) (admittedAt : Option Instant) (now : Instant)
    (status : Campaign.Status) :
    o₂.report admittedAt now (o₁.report admittedAt now status) =
      Outcome.report { o₂ with created := o₁.created + o₂.created } admittedAt now status := by
  simp only [Outcome.report, Condition.set_set, Campaign.Status.mk.injEq, and_true, true_and]
  split
  · rw [if_pos (by omega)]
  · split
    · rw [if_pos (by omega)]
    · rw [if_neg (by omega)]

theorem rejection_rejection (e : Error) (now : Instant) (status : Campaign.Status) :
    rejection e now (rejection e now status) = rejection e now status := by
  simp only [rejection, Condition.set_set]

/-! ## What is left of a plan -/

/-- The work units of a plan, those first that have been taken from it. -/
theorem perm_append_rest {made planned : List WorkUnit}
    (hnodup : (planned.map (·.spec.batchIndex)).Nodup) (hmade : made.Sublist planned) :
    planned.Perm (made ++ planned.filter fun u =>
      !made.any (·.spec.batchIndex == u.spec.batchIndex)) := by
  have htaken : (planned.filter fun u =>
      made.any (·.spec.batchIndex == u.spec.batchIndex)).Perm made := by
    refine (List.perm_ext_iff_of_nodup (hnodup.of_map.filter _)
      (hmade.nodup hnodup.of_map)).2 fun u => ?_
    simp only [List.mem_filter, List.any_eq_true, beq_iff_eq]
    refine ⟨fun ⟨hu, u', hu', heq⟩ => ?_, fun hu => ⟨hmade.subset hu, u, hu, rfl⟩⟩
    rwa [← List.inj_on_of_nodup_map hnodup (hmade.subset hu') hu heq]
  exact (List.filter_append_perm _ planned).symm.trans (htaken.append_right _)

/-- New work units that are as planned are live. -/
theorem isLive_of_news {made : List WorkUnit}
    (hmade : made.Sublist (plan campaign units batches now).create)
    (hnews : (news.map fun u => (u.spec, u.status)).Perm (made.map fun u => (u.spec, u.status))) :
    ∀ u ∈ news, u.isLive := by
  intro u hu
  obtain ⟨u', hu', heq⟩ := List.mem_map.1 (hnews.subset (List.mem_map_of_mem hu))
  obtain ⟨index, batch, rfl⟩ := exists_of_mem_create (hmade.subset hu')
  have hstatus : _ = u.status := congrArg Prod.snd heq
  rw [WorkUnit.isLive, ← hstatus]
  rfl

/-- The plan of a campaign with some of the planned work units is for the others. -/
theorem create_append (hactive : campaign.spec.suspended = false) (hsep : Separate batches)
    {made : List WorkUnit} (hmade : made.Sublist (plan campaign units batches now).create)
    (hunits : units₁.Perm (units ++ news))
    (hnews : (news.map fun u => (u.spec, u.status)).Perm (made.map fun u => (u.spec, u.status))) :
    (plan campaign units₁ batches now).create = (plan campaign units batches now).create.filter
        fun u => !made.any (·.spec.batchIndex == u.spec.batchIndex) := by
  have hindices : (news.map (·.spec.batchIndex)).Perm (made.map (·.spec.batchIndex)) := by
    have h := hnews.map fun p => p.1.batchIndex
    rwa [List.map_map, List.map_map] at h
  have hnodup : (news.map (·.spec.batchIndex)).Nodup :=
    hindices.nodup_iff.2 ((hmade.map _).nodup (nodup_create_index campaign units batches now))
  have hselected : ∀ u ∈ news, (u.spec.batchIndex, u.spec.repositories) ∈
      selected units batches campaign.spec.policy.parallelism := by
    intro u hu
    obtain ⟨u', hu', heq⟩ := List.mem_map.1 (hnews.subset (List.mem_map_of_mem hu))
    replace hu' := hmade.subset hu'
    rw [plan_of_not_suspended hactive] at hu'
    obtain ⟨e, he, rfl⟩ := List.mem_map.1 hu'
    have hspec : _ = u.spec := congrArg Prod.fst heq
    rw [← hspec]
    exact he
  have hany : ∀ i, news.any (·.spec.batchIndex == i) = made.any (·.spec.batchIndex == i) := by
    intro i
    have h := hindices.any_eq (f := (· == i))
    rwa [List.any_map, List.any_map] at h
  rw [plan_of_not_suspended hactive, plan_of_not_suspended hactive]
  dsimp only
  rw [selected_append hsep hunits (isLive_of_news hmade hnews) hselected hnodup, List.filter_map]
  refine congrArg _ (List.filter_congr fun e _ => ?_)
  rw [hany]
  rfl

/-- What a pass leaves of the plan to the next one. -/
structure Rest (campaign : Campaign) (units units₁ : List WorkUnit) (batches : List Batch)
    (now : Instant) (tried : List WorkUnit) (s s₁ : Store) : Prop where
  planned : (plan campaign units batches now).create.Perm
    (s.missing tried ++ (plan campaign units₁ batches now).create)
  missing : (s.missing (plan campaign units batches now).create).Perm
    (s.missing tried ++ s₁.missing (plan campaign units₁ batches now).create)
  live : liveCount units₁ = liveCount units + (s.missing tried).length

theorem Admitted.rest (h : Admitted campaign units batches now tried s s₁)
    (hactive : campaign.spec.suspended = false) (hsep : Separate batches)
    (htried : tried.Sublist (plan campaign units batches now).create)
    (hunits₁ : (s₁.list .workUnit (unitFilter campaign)).mapM Resource.decode = .ok units₁) :
    Rest campaign units units₁ batches now tried s s₁ := by
  obtain ⟨units', news, hunits', hperm, hnews⟩ := h.listed
  cases hunits₁.symm.trans hunits'
  have hmade : (s.missing tried).Sublist (plan campaign units batches now).create :=
    List.filter_sublist.trans htried
  have hcreate := create_append hactive hsep hmade hperm hnews
  have hplanned : (plan campaign units batches now).create.Perm
      (s.missing tried ++ (plan campaign units₁ batches now).create) := by
    rw [hcreate]
    exact perm_append_rest (nodup_create_index campaign units batches now) hmade
  refine ⟨hplanned, ?_, ?_⟩
  · -- the slots of the others are as they were
    have hsame : ∀ u ∈ (plan campaign units₁ batches now).create,
        s₁.find? (Resource.slot u) = s.find? (Resource.slot u) := by
      intro u hu
      rw [hcreate, List.mem_filter, Bool.not_eq_true', List.any_eq_false] at hu
      refine h.other _ (Slot.ne_of_kind_ne (by decide))
        (Slot.ne_of_kind_ne (by decide))
        fun u' hu' heq => hu.2 u' hu' (beq_iff_eq.2 ?_)
      obtain ⟨i, batch, rfl⟩ := exists_of_mem_create hu.1
      obtain ⟨i', batch', rfl⟩ := exists_of_mem_create (hmade.subset hu')
      have hkey : (workUnit campaign i' batch' now).key = (workUnit campaign i batch now).key :=
        congrArg Slot.key heq
      exact index_of_key_eq hkey
    have hmade' : s.missing (s.missing tried) = s.missing tried := by
      unfold Store.missing
      rw [List.filter_filter]
      simp only [Bool.and_self]
    have hmissing := hplanned.filter fun u => (s.find? (Resource.slot u)).isNone
    rw [List.filter_append] at hmissing
    rw [missing_congr hsame, ← hmade']
    exact hmissing
  · have hlength := hnews.length_eq
    rw [List.length_map, List.length_map] at hlength
    rw [liveCount_append hperm (isLive_of_news hmade hnews), hlength]

/-- A pass that has tried some of the planned work units, and one after it that has tried what was
left, have done together what one pass does. -/
theorem Admitted.trans (h : Admitted campaign units batches now tried s s₁)
    (hactive : campaign.spec.suspended = false) (hsep : Separate batches)
    (htried : tried.Sublist (plan campaign units batches now).create)
    (hc₁ : s₁.campaign? campaign.key = some c₁)
    (hunits₁ : (s₁.list .workUnit (unitFilter campaign)).mapM Resource.decode = .ok units₁)
    (h' : Admitted c₁ units₁ batches now (plan campaign units₁ batches now).create s₁ s₂) :
    Admitted campaign units batches now (plan campaign units batches now).create s s₂ := by
  have hrest := h.rest hactive hsep htried hunits₁
  obtain ⟨version, hreported⟩ := h.reported
  cases hc₁.symm.trans hreported
  have hslot : ∀ u ∈ s.missing tried, ∀ u' ∈ s₁.missing (plan campaign units₁ batches now).create,
      Resource.slot u' ≠ Resource.slot u := by
    intro u hu u' hu' heq
    obtain ⟨o, found, -⟩ := h.created u hu
    have hnone := (List.mem_filter.1 hu').2
    rw [heq, found] at hnone
    cases hnone
  refine ⟨?_, ?_, fun u hu => ?_, fun slot hne hne' hnot => ?_, ?_⟩
  · obtain ⟨version', hreported'⟩ := h'.reported
    refine ⟨version', hreported'.trans ?_⟩
    rw [report_report, hrest.missing.length_eq, hrest.planned.length_eq, hrest.live]
    simp only [List.length_append, Nat.add_assoc]
  · obtain ⟨o, found, hbare⟩ := h.document
    obtain ⟨o', found', hbare'⟩ := h'.document
    have hagain := bare_refreshed hbare
    rw [← found] at hagain
    exact ⟨o', found', hbare'.trans (hagain.trans hbare)⟩
  · rcases List.mem_append.1 (hrest.missing.mem_iff.1 hu) with hu | hu
    · obtain ⟨o, found, hbare⟩ := h.created u hu
      exact ⟨o, (h'.other _ (Slot.ne_of_kind_ne (by decide)) (Slot.ne_of_kind_ne (by decide))
        (hslot u hu)).trans found, hbare⟩
    · exact h'.created u hu
  · refine (h'.other slot hne hne' fun u hu => ?_).trans (h.other slot hne hne' fun u hu => ?_)
    · exact hnot u (hrest.missing.mem_iff.2 (List.mem_append_right _ hu))
    · exact hnot u (hrest.missing.mem_iff.2 (List.mem_append_left _ hu))
  · obtain ⟨units', news, hunits', hperm, hnews⟩ := h.listed
    cases hunits₁.symm.trans hunits'
    obtain ⟨units₂, news', hunits₂, hperm', hnews'⟩ := h'.listed
    refine ⟨units₂, news ++ news', hunits₂, ?_, ?_⟩
    · rw [← List.append_assoc]
      exact hperm'.trans (hperm.append_right _)
    · have hmissing := hrest.missing.map fun u : WorkUnit => (u.spec, u.status)
      rw [List.map_append] at hmissing ⊢
      exact (hnews.append hnews').trans hmissing.symm

/-! ## What the next pass sees -/

/-- A document that has been brought up to date can be read if there was none that cannot. -/
theorem isReadable_of_refreshed {slot : Slot} {fresh : ConfigDocument} {o : Object}
    (hreadable : s.isReadable slot) (found : s₁.find? slot = some o)
    (hbare : o.bare = (refreshed fresh (s.find? slot)).bare) : s₁.isReadable slot := by
  have hbody : o.bare.body = (refreshed fresh (s.find? slot)).body := by rw [hbare]; rfl
  have hdecode := Resource.decode_eq_map (α := ConfigDocument) (show o.body = _ from hbody)
  have hok : ∃ d : ConfigDocument, Resource.decode (refreshed fresh (s.find? slot)) = .ok d := by
    cases hold : s.find? slot with
    | none => exact ⟨_, Resource.decode_encode fresh⟩
    | some old =>
      rw [Store.isReadable, hold, Option.all_some] at hreadable
      obtain ⟨current, h⟩ := Option.isSome_iff_exists.1 hreadable
      replace h : Resource.decode old = .ok current := Resource.eq_ok_of_toOption_decode h
      simp only [refreshed, h]
      cases hchange : refresh fresh current with
      | mk changed note =>
        cases note with
        | none => exact ⟨current, h⟩
        | some => exact ⟨_, Resource.decode_encode changed⟩
  obtain ⟨d, hd⟩ := hok
  rw [Store.isReadable, found, Option.all_some, hdecode, hd]
  rfl

/-- The next pass sees the same campaign with the same batches. -/
theorem Admitted.survey (h : Admitted campaign units batches now tried s s₁)
    (hsurvey : s.survey key repositories = .admits campaign units batches)
    (hkey : campaign.key = key) :
    ∃ c₁ units₁, s₁.survey key repositories = .admits c₁ units₁ batches ∧
      s₁.campaign? campaign.key = some c₁ ∧
      (s₁.list .workUnit (unitFilter campaign)).mapM Resource.decode = .ok units₁ := by
  obtain ⟨-, hdel, -, hbatches, hreadable⟩ := Store.survey_eq_admits.1 hsurvey
  obtain ⟨version, hreported⟩ := h.reported
  obtain ⟨units₁, -, hunits₁, -, -⟩ := h.listed
  obtain ⟨o, found, hbare⟩ := h.document
  have hreadable₁ := isReadable_of_refreshed hreadable found hbare
  rw [← hkey]
  exact ⟨_, units₁, Store.survey_eq_admits.2 ⟨hreported, hdel, hunits₁, hbatches, hreadable₁⟩,
    hreported, hunits₁⟩

theorem Rejected.survey {e : Error} (h : Rejected campaign e now s s₁)
    (hsurvey : s.survey key repositories = .rejected campaign e) (hkey : campaign.key = key) :
    ∃ c₁, s₁.survey key repositories = .rejected c₁ e ∧ s₁.campaign? campaign.key = some c₁ := by
  obtain ⟨-, hdel, ⟨units, hunits⟩, hbatches⟩ := Store.survey_eq_rejected.1 hsurvey
  obtain ⟨version, hreported⟩ := h.reported
  rw [← h.alike.list .workUnit _ (nofun : Kind.workUnit ≠ .campaign)] at hunits
  rw [← hkey]
  exact ⟨_, Store.survey_eq_rejected.2 ⟨hreported, hdel, ⟨units, hunits⟩, hbatches⟩, hreported⟩

theorem Rejected.trans {e : Error} (h : Rejected campaign e now s s₁)
    (hc₁ : s₁.campaign? campaign.key = some c₁) (h' : Rejected c₁ e now s₁ s₂) :
    Rejected campaign e now s s₂ := by
  obtain ⟨version, hreported⟩ := h.reported
  cases hc₁.symm.trans hreported
  obtain ⟨version', hreported'⟩ := h'.reported
  refine ⟨⟨version', hreported'.trans ?_⟩, h.alike.trans h'.alike⟩
  rw [rejection_rejection]

/-! ## Passes after each other -/

/-- Whether a pass of the campaign at a key is to admit work units, if it does anything. -/
structure Ready (key : Key) (s : Store) : Prop where
  reached : s.Reached
  active : ∀ c, s.campaign? key = some c → c.spec.suspended = false

theorem Ready.key_eq (h : Ready key s) (hcampaign : s.campaign? key = some campaign) :
    campaign.key = key := Store.campaign_key_eq h.reached hcampaign

/-- A pass keeps what the campaign is to have. -/
theorem Leaves.active (h : Leaves key repositories now budget s s₁) (hs : Ready key s) :
    ∀ c, s₁.campaign? key = some c → c.spec.suspended = false := by
  intro c hc
  unfold Leaves at h
  split at h
  · cases h
    exact hs.active c hc
  · next campaign e hsurvey =>
    obtain ⟨hcampaign, -⟩ := Store.survey_eq_rejected.1 hsurvey
    obtain ⟨version, hreported⟩ := h.reported
    rw [hs.key_eq hcampaign] at hreported
    cases hc.symm.trans hreported
    exact hs.active campaign hcampaign
  · next campaign units batches hsurvey =>
    obtain ⟨hcampaign, -⟩ := Store.survey_eq_admits.1 hsurvey
    obtain ⟨version, hreported⟩ := h.reported
    rw [hs.key_eq hcampaign] at hreported
    cases hc.symm.trans hreported
    exact hs.active campaign hcampaign

/-- A pass without a limit after one with a limit: together they leave what one pass without a
limit leaves, and create as many work units. -/
theorem Leaves.trans (hs : Ready key s) (hnodup : repositories.Nodup)
    (h : Leaves key repositories now budget s s₁) (h' : Leaves key repositories now none s₁ s₂) :
    Leaves key repositories now none s s₂ ∧
      (s.missing (s.planned key repositories now)).Perm
        (s.missing (within budget (s.planned key repositories now)) ++
          s₁.missing (s₁.planned key repositories now)) := by
  unfold Leaves at h ⊢
  unfold Store.planned
  split at h
  · next hsurvey =>
    cases h
    rw [Leaves, hsurvey] at h'
    rw [hsurvey]
    exact ⟨h', .of_eq (by rw [within_nil]; rfl)⟩
  · next campaign e hsurvey =>
    obtain ⟨hcampaign, -⟩ := Store.survey_eq_rejected.1 hsurvey
    obtain ⟨c₁, hsurvey₁, hc₁⟩ := h.survey hsurvey (hs.key_eq hcampaign)
    rw [Leaves, hsurvey₁] at h'
    rw [hsurvey₁]
    exact ⟨h.trans hc₁ h', .of_eq (by rw [within_nil]; rfl)⟩
  · next campaign units batches hsurvey =>
    obtain ⟨hcampaign, -, -, hbatches, -⟩ := Store.survey_eq_admits.1 hsurvey
    obtain ⟨c₁, units₁, hsurvey₁, hc₁, hunits₁⟩ := h.survey hsurvey (hs.key_eq hcampaign)
    have hsep := separate_of_batches hnodup hbatches
    have hactive := hs.active campaign hcampaign
    rw [Leaves, hsurvey₁] at h'
    rw [hsurvey₁]
    obtain ⟨version, hreported⟩ := h.reported
    cases hc₁.symm.trans hreported
    exact ⟨h.trans hactive hsep (sublist_within ..) hreported hunits₁ h',
      (h.rest hactive hsep (sublist_within ..) hunits₁).missing⟩

/-! ## What passes without a limit have in common -/

/-- Two stores hold the same apart from what a store gives to new objects, and from versions. The
campaign at the key may be written differently. -/
structure Agree (key : Key) (a b : Store) : Prop where
  objects : ∀ slot, slot ≠ { kind := .campaign, key } →
    (a.find? slot).map Object.bare = (b.find? slot).map Object.bare
  campaign : (a.campaign? key).map Campaign.bare = (b.campaign? key).map Campaign.bare

/-- What a pass without a limit leaves does not depend on when it takes place. -/
theorem Leaves.agree {a b : Store} (hs : Ready key s)
    (ha : Leaves key repositories now none s a) (hb : Leaves key repositories now none s b) :
    Agree key a b := by
  unfold Leaves at ha hb
  split at ha
  · next hsurvey =>
    rw [hsurvey] at hb
    cases ha
    cases hb
    exact ⟨fun _ _ => rfl, rfl⟩
  · next campaign e hsurvey =>
    obtain rfl := hs.key_eq (Store.survey_eq_rejected.1 hsurvey).1
    rw [hsurvey] at hb
    obtain ⟨version, hreported⟩ := ha.reported
    obtain ⟨version', hreported'⟩ := hb.reported
    refine ⟨fun slot hne => ?_, ?_⟩
    · rw [ha.alike.find? slot hne, hb.alike.find? slot hne]
    · rw [hreported, hreported']
      rfl
  · next campaign units batches hsurvey =>
    obtain rfl := hs.key_eq (Store.survey_eq_admits.1 hsurvey).1
    rw [hsurvey] at hb
    obtain ⟨version, hreported⟩ := ha.reported
    obtain ⟨version', hreported'⟩ := hb.reported
    refine ⟨fun slot hne => ?_, ?_⟩
    · by_cases hdocument : slot = documentSlot campaign
      · subst hdocument
        obtain ⟨o, found, hbare⟩ := ha.document
        obtain ⟨o', found', hbare'⟩ := hb.document
        rw [found, found', Option.map_some, Option.map_some, hbare, hbare']
      by_cases hmade : ∃ u ∈ s.missing (plan campaign units batches now).create,
          Resource.slot u = slot
      · obtain ⟨u, hu, rfl⟩ := hmade
        obtain ⟨o, found, hbare⟩ := ha.created u hu
        obtain ⟨o', found', hbare'⟩ := hb.created u hu
        rw [found, found', Option.map_some, Option.map_some, hbare, hbare']
      · have hnot : ∀ u ∈ s.missing (plan campaign units batches now).create,
            Resource.slot u ≠ slot := fun u hu heq => hmade ⟨u, hu, heq⟩
        rw [ha.other slot hne hdocument hnot, hb.other slot hne hdocument hnot]
    · rw [hreported, hreported']
      rfl

/-- What a pass does to the work units: those that it has tried and that were missing are there
afterwards, and the others are as they were. -/
theorem Leaves.workUnits (h : Leaves key repositories now budget s s₁) :
    (∀ u ∈ s.missing (within budget (s.planned key repositories now)),
      ∃ o, s₁.find? (Resource.slot u) = some o ∧ o.bare = (Resource.encode u).bare) ∧
    ∀ k, (∀ u ∈ s.missing (within budget (s.planned key repositories now)), u.key ≠ k) →
      s₁.find? { kind := .workUnit, key := k } = s.find? { kind := .workUnit, key := k } := by
  unfold Leaves at h
  unfold Store.planned
  split at h
  · next hsurvey =>
    cases h
    rw [within_nil]
    exact ⟨fun _ h => absurd h List.not_mem_nil, fun _ _ => rfl⟩
  · next campaign e hsurvey =>
    rw [within_nil]
    refine ⟨fun _ h => absurd h List.not_mem_nil,
      fun k _ => h.alike.find? _ (Slot.ne_of_kind_ne (by decide))⟩
  · next campaign units batches hsurvey =>
    exact ⟨h.created, fun k hnot => h.other _ (Slot.ne_of_kind_ne (by decide))
      (Slot.ne_of_kind_ne (by decide)) fun u hu heq => hnot u hu (congrArg Slot.key heq)⟩

theorem nodup_planned (s : Store) (key : Key) (repositories : List String) (now : Instant) :
    ((s.planned key repositories now).map WorkUnit.key).Nodup := by
  unfold Store.planned
  split
  · exact List.nodup_nil
  · exact List.nodup_nil
  · exact nodup_create ..

/-- A pass creates one work unit in each slot that is filled by it. -/
theorem Leaves.countP_missing (h : Leaves key repositories now budget s s₁) (k : Key) :
    (s.missing (within budget (s.planned key repositories now))).countP (·.key == k) =
      if s.find? { kind := .workUnit, key := k } = none ∧
        s₁.find? { kind := .workUnit, key := k } ≠ none then 1 else 0 := by
  obtain ⟨hmade, hother⟩ := h.workUnits
  have hnodup : ((s.missing (within budget (s.planned key repositories now))).map
      WorkUnit.key).Nodup :=
    ((List.filter_sublist.trans (sublist_within ..)).map _).nodup (nodup_planned ..)
  have hcount : (s.missing (within budget (s.planned key repositories now))).countP (·.key == k) =
      ((s.missing (within budget (s.planned key repositories now))).map WorkUnit.key).count k := by
    rw [List.count, List.countP_map]
    rfl
  rw [hcount]
  by_cases hmem : ∃ u ∈ s.missing (within budget (s.planned key repositories now)), u.key = k
  · obtain ⟨u, hu, rfl⟩ := hmem
    obtain ⟨o, found, -⟩ := hmade u hu
    have hnone := Option.isNone_iff_eq_none.1 (List.mem_filter.1 hu).2
    rw [if_pos ⟨hnone, fun h => by cases found.symm.trans h⟩]
    exact List.count_eq_one_of_mem hnodup (List.mem_map_of_mem hu)
  · have hsame := hother k fun u hu heq => hmem ⟨u, hu, heq⟩
    rw [hsame, if_neg fun h => h.2 h.1]
    exact List.count_eq_zero_of_not_mem fun h => hmem (List.mem_map.1 h)

/-! ## Stages -/

/-- A stage on which the campaign at a key is to admit work units for these repositories, and where
nothing fails but the creation of work units. -/
structure Prepared (key : Key) (repositories : List String) (stage : Stage) : Prop where
  calm : stage.Calm
  ready : Ready key stage.store
  repositories : (Keyed.find? key stage.repositories).getD [] = repositories

/-- A campaign is all that has to be on the stage, with its repositories. -/
theorem Prepared.of_store (hs : s.Reached) (hcampaign : s.campaign? key = some campaign)
    (hactive : campaign.spec.suspended = false) (repositories : List String) (clock : Instant) :
    Prepared key repositories { store := s, repositories := [(key, repositories)], clock } where
  calm := ⟨rfl, rfl, rfl, ⟨rfl, rfl, fun _ _ => rfl⟩⟩
  ready := ⟨hs, fun c hc => by cases hcampaign.symm.trans hc; exact hactive⟩
  repositories := by simp [Keyed.find?]

theorem Prepared.run {stage : Stage} (h : Prepared key repositories stage) (settings : Settings)
    (now : Instant) :
    Prepared key repositories (stage.run (reconcile settings key now)).2 ∧
      Solo key repositories now stage.scene (stage.run (reconcile settings key now)).1
        (stage.run (reconcile settings key now)).2.scene := by
  obtain ⟨hresult, hscene, hcalm⟩ := h.calm.run (reconcile settings key now)
  have hbefore : stage.scene.store.Reached := h.ready.reached
  obtain ⟨result, after, hpass, hsolo⟩ := perform_pass settings key now hbefore h.ready.active
  have hreached := Pass.perform_reached (pass settings key now) hbefore
  have hrepositories := Pass.repositories_run (reconcile settings key now) stage.scene
  rw [run_reconcile, hpass] at hresult hscene hrepositories
  rw [hpass] at hreached
  rw [show (Keyed.find? key stage.scene.repositories).getD [] = repositories from h.repositories]
    at hsolo
  rw [hresult, hscene]
  dsimp only at hscene hrepositories
  have hstore : (stage.run (reconcile settings key now)).2.store = after.store :=
    congrArg Scene.store hscene
  have hsame : (stage.run (reconcile settings key now)).2.repositories = after.repositories :=
    congrArg Scene.repositories hscene
  refine ⟨⟨hcalm, ⟨?_, ?_⟩, ?_⟩, hsolo⟩
  · rw [hstore]
    exact hreached
  · rw [hstore]
    exact hsolo.leaves.active h.ready
  · rw [hsame, hrepositories]
    exact h.repositories

section
variable (settings : Settings) (key : Key) (now : Instant)

/-- A pass in which the creation of work units fails after a number of successes. -/
def faultyPass (stage : Stage) (clock : Instant) (limit : Nat) : Except Error Action × Stage :=
  Stage.run (reconcile settings key now)
    { stage with clock, faults := stage.faults.failCreationsAfter .workUnit limit }

/-- Passes one after the other, each at a time of its own and with its own number of successes. -/
def faultyPasses : Stage → List (Instant × Nat) → Stage
  | stage, [] => stage
  | stage, (clock, limit) :: rest =>
    faultyPasses (faultyPass settings key now stage clock limit).2 rest

/-- A pass after all faults have been removed. -/
def healedPass (stage : Stage) (clock : Instant) : Except Error Action × Stage :=
  Stage.run (reconcile settings key now) { stage with clock, faults := stage.faults.heal }

end

variable {stage : Stage}

theorem Prepared.faulty (h : Prepared key repositories stage) (clock : Instant) (limit : Nat) :
    Prepared key repositories
      { stage with clock, faults := stage.faults.failCreationsAfter .workUnit limit } where
  calm :=
    { rules := h.calm.rules
      discoveryFault := h.calm.discoveryFault
      mute := h.calm.mute
      faults :=
        { outage := h.calm.faults.outage
          conflicts := h.calm.faults.conflicts
          creations := fun kind hne => by
            show Keyed.find? kind (Keyed.insert _ _ _) = none
            rw [Keyed.find?_insert, if_neg (Ne.symm hne)]
            exact h.calm.faults.creations kind hne } }
  ready := h.ready
  repositories := h.repositories

theorem Prepared.healed (h : Prepared key repositories stage) (clock : Instant) :
    Prepared key repositories { stage with clock, faults := stage.faults.heal } where
  calm :=
    { rules := h.calm.rules
      discoveryFault := h.calm.discoveryFault
      mute := h.calm.mute
      faults := ⟨rfl, rfl, fun _ _ => rfl⟩ }
  ready := h.ready
  repositories := h.repositories

/-- A pass in which only so many work units can be created. -/
theorem Prepared.faultyPass (h : Prepared key repositories stage) (settings : Settings)
    (now clock : Instant) (limit : Nat) :
    let outcome := faultyPass settings key now stage clock limit
    Prepared key repositories outcome.2 ∧
      Solo key repositories now { stage.scene with clock, budget := some limit } outcome.1
        outcome.2.scene := by
  intro outcome
  obtain ⟨hprepared, hsolo⟩ := (h.faulty clock limit).run settings now
  have hbudget : (stage.faults.failCreationsAfter .workUnit limit).budget = some limit :=
    (Keyed.find?_insert ..).trans (if_pos rfl)
  simp only [Stage.scene, hbudget] at hsolo
  exact ⟨hprepared, hsolo⟩

theorem Prepared.healedPass (h : Prepared key repositories stage) (settings : Settings)
    (now clock : Instant) :
    let outcome := healedPass settings key now stage clock
    Prepared key repositories outcome.2 ∧
      Solo key repositories now { stage.scene with clock, budget := none } outcome.1
        outcome.2.scene :=
  (h.healed clock).run settings now

theorem Prepared.faultyPasses (h : Prepared key repositories stage) (settings : Settings)
    (now : Instant) (limits : List (Instant × Nat)) :
    Prepared key repositories (faultyPasses settings key now stage limits) := by
  induction limits generalizing stage with
  | nil => exact h
  | cons first rest ih => exact ih (h.faultyPass settings now first.1 first.2).1

/-- Faulty passes and a healed one after them leave what one pass without a limit leaves, and
announce each work unit once that such a pass creates. -/
theorem Prepared.recovers (h : Prepared key repositories stage) (hnodup : repositories.Nodup)
    (settings : Settings) (now clock : Instant) (limits : List (Instant × Nat)) :
    let final := (Admission.healedPass settings key now
      (Admission.faultyPasses settings key now stage limits) clock).2
    Leaves key repositories now none stage.store final.store ∧
      ∀ k, final.events.countP (Event.admits k) = stage.events.countP (Event.admits k) +
        (stage.store.missing (stage.store.planned key repositories now)).countP (·.key == k) := by
  induction limits generalizing stage with
  | nil =>
    obtain ⟨-, hsolo⟩ := h.healedPass settings now clock
    exact ⟨hsolo.leaves, hsolo.announced⟩
  | cons first rest ih =>
    obtain ⟨hprepared, hsolo⟩ := h.faultyPass settings now first.1 first.2
    obtain ⟨hleaves, hannounced⟩ := ih hprepared
    obtain ⟨hall, hperm⟩ := hsolo.leaves.trans h.ready hnodup hleaves
    refine ⟨hall, fun k => (hannounced k).trans ?_⟩
    have hcount := hperm.countP_eq (·.key == k)
    rw [List.countP_append] at hcount
    exact (congrArg (· + _) (hsolo.announced k)).trans
      ((Nat.add_assoc ..).trans (congrArg (_ + ·) hcount.symm))

/-! ## Recovery -/

/-- A pass has created the first ones of the planned work units as far as they were missing, and
none of the others, and has come to an error that is worth another try. -/
structure StoppedAfter (limit : Nat) (planned : List WorkUnit) (result : Except Error Action)
    (before after : Store) : Prop where
  retryable : ∃ e, result = .error e ∧ e.isFatal = false
  kept : ∀ u ∈ planned.take limit, ∃ o, after.find? (Resource.slot u) = some o ∧
    (before.find? (Resource.slot u) = none → o.bare = (Resource.encode u).bare)
  untouched : ∀ k, before.find? { kind := .workUnit, key := k } ≠ none ∨
      (∀ u ∈ planned.take limit, u.key ≠ k) →
    after.find? { kind := .workUnit, key := k } = before.find? { kind := .workUnit, key := k }

theorem Solo.stoppedAfter {scene after : Scene} {result : Except Error Action} {limit : Nat}
    (h : Solo key repositories now scene result after) (hbudget : scene.budget = some limit)
    (hlimit : limit < (scene.store.planned key repositories now).length) :
    StoppedAfter limit (scene.store.planned key repositories now) result scene.store
      after.store := by
  obtain ⟨hmade, hother⟩ := h.leaves.workUnits
  have hfailed := h.failed
  simp only [hbudget, within] at hmade hother hfailed
  refine ⟨⟨_, hfailed ?_, rfl⟩, fun u hu => ?_, fun k hk => hother k fun u hu heq => ?_⟩
  · rw [List.length_take]
    omega
  · cases found : scene.store.find? (Resource.slot u) with
    | none =>
      obtain ⟨o, found', hbare⟩ := hmade u (List.mem_filter.2 ⟨hu, by rw [found]; rfl⟩)
      exact ⟨o, found', fun _ => hbare⟩
    | some o =>
      refine ⟨o, (hother u.key fun u' hu' heq => ?_).trans found, nofun⟩
      have hnone := (List.mem_filter.1 hu').2
      rw [show Resource.slot u' = Resource.slot u from congrArg (Slot.mk .workUnit) heq, found]
        at hnone
      cases hnone
  · obtain ⟨hu, hnone⟩ := List.mem_filter.1 hu
    subst heq
    rcases hk with hk | hk
    · exact hk (Option.isNone_iff_eq_none.1 hnone)
    · exact hk u hu rfl

/-- **Partial admission recovers without loss or duplication.** Whatever the creation of work units
fails after in a number of passes over a campaign that is not suspended, and whenever they take
place, the pass after them without faults brings the store to what a single pass without faults
makes of it. A pass that meets the failure keeps the work units that it has planned up to there and
creates no others, and every new work unit is announced once. -/
theorem partial_admission_recovers (settings : Settings) (now : Instant) {s : Store}
    (hs : s.Reached) {key : Key} {campaign : Campaign}
    (hcampaign : s.campaign? key = some campaign) (hactive : campaign.spec.suspended = false)
    {repositories : List String} (hnodup : repositories.Nodup) (limits : List (Instant × Nat))
    (clock clock' : Instant) :
    let stage : Stage := { store := s, repositories := [(key, repositories)] }
    let single := (Stage.run (reconcile settings key now) { stage with clock := clock' }).2
    let final := (healedPass settings key now (faultyPasses settings key now stage limits) clock).2
    Agree key final.store single.store ∧
    (∀ front time limit rest, limits = front ++ (time, limit) :: rest →
      let before := faultyPasses settings key now stage front
      let outcome := faultyPass settings key now before time limit
      limit < (before.store.planned key repositories now).length →
        StoppedAfter limit (before.store.planned key repositories now) outcome.1 before.store
          outcome.2.store) ∧
    ∀ k, final.events.countP (Event.admits k) =
      if s.find? { kind := .workUnit, key := k } = none ∧
        final.store.find? { kind := .workUnit, key := k } ≠ none then 1 else 0 := by
  intro stage single final
  have hprepared : Prepared key repositories stage :=
    { calm := ⟨rfl, rfl, rfl, ⟨rfl, rfl, fun _ _ => rfl⟩⟩
      ready := ⟨hs, fun c hc => by cases hcampaign.symm.trans hc; exact hactive⟩
      repositories := by simp [stage, Keyed.find?] }
  obtain ⟨hfinal, hannounced⟩ := hprepared.recovers hnodup settings now clock limits
  obtain ⟨-, hsingle⟩ := hprepared.healedPass settings now clock'
  refine ⟨hfinal.agree hprepared.ready hsingle.leaves, fun front time limit rest _ => ?_,
    fun k => ?_⟩
  · intro before outcome hlimit
    obtain ⟨-, hsolo⟩ :=
      (hprepared.faultyPasses settings now front).faultyPass settings now time limit
    exact hsolo.stoppedAfter rfl hlimit
  · rw [hannounced k, ← hfinal.countP_missing k]
    exact Nat.zero_add _

/-- A campaign that has two work units. -/
def sampleCampaign : Campaign where
  metadata := { key := { space := "fleet", name := "sweep" } }
  spec := { policy := { strategy := .fixedBatchCount, batchSize := 2, parallelism := 2 } }

def sampleStore : Store :=
  ({} : Store).serveAll [(.epoch, .create .campaign (Resource.encode sampleCampaign))]

theorem campaign?_sampleStore :
    ∃ c, sampleStore.campaign? sampleCampaign.key = some c ∧ c.spec.suspended = false ∧
      c.metadata.isDeleting = false := by
  have h : (sampleStore.campaign? sampleCampaign.key).any fun c =>
      !c.spec.suspended && !c.metadata.isDeleting := by decide +kernel
  obtain ⟨c, hc, hactive⟩ := Option.any_eq_true _ _ |>.1 h
  exact ⟨c, hc, by simpa using hactive⟩

/-- The second work unit cannot be created at first. -/
theorem partial_admission_recovers_sample :
    let stage : Stage :=
      { store := sampleStore, repositories := [(sampleCampaign.key, ["first", "second"])] }
    let stopped := faultyPass {} sampleCampaign.key .epoch stage .epoch 1
    let final := (healedPass {} sampleCampaign.key .epoch
      (faultyPasses {} sampleCampaign.key .epoch stage [(.epoch, 1)]) .epoch).2
    let second : Key := { space := "fleet", name := "sweep-batch-1" }
    (stopped.2.store.find? { kind := .workUnit, key := second }).isNone ∧
      (∃ e, stopped.1 = .error e ∧ e.isFatal = false) ∧
      (final.store.find? { kind := .workUnit, key := second }).isSome ∧
      final.events.countP (Event.admits second) = 1 := by
  have hreached : sampleStore.Reached := ⟨_, rfl⟩
  obtain ⟨campaign, hcampaign, hactive, -⟩ := campaign?_sampleStore
  obtain ⟨-, hstopped, hannounced⟩ := partial_admission_recovers {} .epoch hreached hcampaign
    hactive (show ["first", "second"].Nodup by decide) [(.epoch, 1)] .epoch .epoch
  have hlimit : 1 < (sampleStore.planned sampleCampaign.key ["first", "second"] .epoch).length := by
    decide +kernel
  have hretryable := (hstopped [] .epoch 1 [] rfl hlimit).retryable
  have hfinal : ((healedPass {} sampleCampaign.key .epoch (faultyPasses {} sampleCampaign.key .epoch
      { store := sampleStore, repositories := [(sampleCampaign.key, ["first", "second"])] }
      [(.epoch, 1)]) .epoch).2.store.find?
        { kind := .workUnit, key := { space := "fleet", name := "sweep-batch-1" } }).isSome := by
    decide +kernel
  have hfirst : (sampleStore.find?
      { kind := .workUnit, key := { space := "fleet", name := "sweep-batch-1" } }).isNone := by
    decide +kernel
  dsimp only
  refine ⟨by decide +kernel, hretryable, hfinal, ?_⟩
  rw [hannounced]
  exact if_pos ⟨Option.isNone_iff_eq_none.1 hfirst, Option.isSome_iff_ne_none.1 hfinal⟩

end Admission
end CampaignControl
