import CampaignControl.Proofs.Admission.Repetition

/-!
# Batches that are offered again

A pass tries to create a work unit for each batch that it offers, and adopts what it finds in its
place. A work unit that has been created belongs to the campaign, so the next pass lists it and
does not offer its batch any more. What has been adopted has been found by its name: as it belongs
to nobody, or to somebody else, the next pass does not list it and offers the batch once more
(`Admission.offers_after_pass`). It takes the room of a batch behind it each time
(`Admission.offer_repeats`).
-/

namespace CampaignControl
namespace Admission

variable {campaign c₁ : Campaign} {units units₁ : List WorkUnit} {batches : List Batch}
  {now later : Instant} {s s₁ : Store} {key : Key} {repositories : List String} {u : WorkUnit}

/-! ## Plans and coverage -/

/-- What is planned is not covered. -/
theorem not_isCovered_of_mem_create (hu : u ∈ (plan campaign units batches now).create) :
    isCovered units u.spec.batchIndex u.spec.repositories = false := by
  unfold plan at hu
  split at hu
  · cases hu
  · obtain ⟨e, he, rfl⟩ := List.mem_map.1 hu
    have hmem := List.mem_of_mem_take he
    rw [uncovered_eq_filter] at hmem
    have hnot : isCovered units e.1 e.2 = false := by simpa using (List.mem_filter.1 hmem).2
    exact hnot

/-- The batches of a plan do not depend on when it is made. -/
theorem index_create_at (hactive : campaign.spec.suspended = false) (units : List WorkUnit)
    (batches : List Batch) (now later : Instant) :
    (plan campaign units batches later).create.map (·.spec.batchIndex) =
      (plan campaign units batches now).create.map (·.spec.batchIndex) := by
  rw [plan_of_not_suspended hactive, plan_of_not_suspended hactive, List.map_map, List.map_map]
  rfl

theorem mem_planned (hu : u ∈ s.planned key repositories now) :
    ∃ campaign units batches, s.survey key repositories = .admits campaign units batches ∧
      u ∈ (plan campaign units batches now).create := by
  unfold Store.planned at hu
  split at hu
  · cases hu
  · cases hu
  · next hsurvey => exact ⟨_, _, _, hsurvey, hu⟩

/-! ## What the next pass lists -/

/-- A planned batch is covered after a pass just if a work unit for it, or for the same
repositories, has been created. -/
theorem Admitted.isCovered_iff
    (h : Admitted campaign units batches now (plan campaign units batches now).create s s₁)
    (hunits₁ : (s₁.list .workUnit (unitFilter campaign)).mapM Resource.decode = .ok units₁)
    (hu : u ∈ (plan campaign units batches now).create) :
    isCovered units₁ u.spec.batchIndex u.spec.repositories ↔
      ∃ made ∈ s.missing (plan campaign units batches now).create,
        made.spec.batchIndex = u.spec.batchIndex ∨
          sameRepositories made.spec.repositories u.spec.repositories := by
  obtain ⟨units', news, hunits', hperm, hnews⟩ := h.listed
  cases hunits₁.symm.trans hunits'
  have hlive := isLive_of_news (List.filter_sublist ..) hnews
  have hbefore := not_isCovered_of_mem_create hu
  rw [← Bool.not_eq_true, Admission.isCovered_iff] at hbefore
  rw [Admission.isCovered_iff]
  constructor
  · rintro ⟨v, hv, hcovers⟩
    rcases List.mem_append.1 (hperm.mem_iff.1 hv) with hold | hnew
    · exact absurd ⟨v, hold, hcovers⟩ hbefore
    · obtain ⟨made, hmade, heq⟩ := List.mem_map.1 (hnews.subset (List.mem_map_of_mem hnew))
      have hspec : made.spec = v.spec := congrArg Prod.fst heq
      exact ⟨made, hmade, hspec ▸ hcovers.imp_right And.right⟩
  · rintro ⟨made, hmade, hcovers⟩
    obtain ⟨v, hv, heq⟩ := List.mem_map.1 (hnews.symm.subset (List.mem_map_of_mem hmade))
    have hspec : v.spec = made.spec := congrArg Prod.fst heq
    exact ⟨v, hperm.mem_iff.2 (List.mem_append_right _ hv),
      hspec ▸ hcovers.imp_right fun hsame => ⟨hlive v hv, hsame⟩⟩

/-- A batch is covered, whatever it is, if a work unit with its index has been created. -/
theorem Admitted.covers
    (h : Admitted campaign units batches now (plan campaign units batches now).create s s₁)
    (hunits₁ : (s₁.list .workUnit (unitFilter campaign)).mapM Resource.decode = .ok units₁)
    (hu : u ∈ s.missing (plan campaign units batches now).create) (batch : Batch) :
    isCovered units₁ u.spec.batchIndex batch := by
  obtain ⟨units', news, hunits', hperm, hnews⟩ := h.listed
  cases hunits₁.symm.trans hunits'
  obtain ⟨v, hv, heq⟩ := List.mem_map.1 (hnews.symm.subset (List.mem_map_of_mem hu))
  have hspec : v.spec = u.spec := congrArg Prod.fst heq
  exact Admission.isCovered_iff.2
    ⟨v, hperm.mem_iff.2 (List.mem_append_right _ hv), .inl (by rw [hspec])⟩

/-- Of a plan for separate batches, the next one has just what has been adopted. -/
theorem Admitted.index_create
    (h : Admitted campaign units batches now (plan campaign units batches now).create s s₁)
    (hactive : campaign.spec.suspended = false) (hsep : Separate batches)
    (hunits₁ : (s₁.list .workUnit (unitFilter campaign)).mapM Resource.decode = .ok units₁) :
    (plan campaign units₁ batches later).create.map (·.spec.batchIndex) =
      ((plan campaign units batches now).create.filter fun u =>
        (s.find? (Resource.slot u)).isSome).map (·.spec.batchIndex) := by
  obtain ⟨units', news, hunits', hperm, hnews⟩ := h.listed
  cases hunits₁.symm.trans hunits'
  rw [index_create_at hactive units₁ batches now later,
    create_append hactive hsep (List.filter_sublist ..) hperm hnews]
  refine congrArg _ (List.filter_congr fun u hu => ?_)
  have hnodup := nodup_create_index campaign units batches now
  rw [Bool.eq_iff_iff, Bool.not_eq_true', List.any_eq_false, Option.isSome_iff_ne_none]
  constructor
  · intro hnot hnone
    exact hnot u (List.mem_filter.2 ⟨hu, by rw [hnone]; rfl⟩) (beq_self_eq_true _)
  · intro hsome made hmade hindex
    obtain ⟨hplanned, hnone⟩ := List.mem_filter.1 hmade
    rw [List.inj_on_of_nodup_map hnodup hplanned hu (beq_iff_eq.1 hindex)] at hnone
    exact hsome (Option.isNone_iff_eq_none.1 hnone)

/-! ## The next pass -/

/-- What is planned for another answer from discovery, or at another time, is planned with the same
campaign and beside the same work units. -/
theorem planned_of_listed (hcampaign : s.campaign? key = some campaign)
    (hunits : (s.list .workUnit (unitFilter campaign)).mapM Resource.decode = .ok units)
    (hu : u ∈ s.planned key repositories now) :
    ∃ batches, u ∈ (plan campaign units batches now).create := by
  obtain ⟨c, units', batches, hsurvey, hmem⟩ := mem_planned hu
  obtain ⟨hc, -, hunits', -, -⟩ := Store.survey_eq_admits.1 hsurvey
  cases hcampaign.symm.trans hc
  cases hunits.symm.trans hunits'
  exact ⟨batches, hmem⟩

/-- What the pass after a pass plans. -/
theorem Leaves.planned_again (h : Leaves key repositories now none s s₁) (hs : Ready key s)
    (hnodup : repositories.Nodup) (later : Instant) :
    (s₁.planned key repositories later).map (·.spec.batchIndex) =
      ((s.planned key repositories now).filter fun u =>
        (s.find? (Resource.slot u)).isSome).map (·.spec.batchIndex) := by
  unfold Leaves at h
  unfold Store.planned
  split at h
  · next hsurvey =>
    rw [h, hsurvey]
    rfl
  · next campaign e hsurvey =>
    obtain ⟨hcampaign, -⟩ := Store.survey_eq_rejected.1 hsurvey
    obtain ⟨c₁, hsurvey₁, -⟩ := h.survey hsurvey (hs.key_eq hcampaign)
    rw [hsurvey₁]
    rfl
  · next campaign units batches hsurvey =>
    obtain ⟨hcampaign, -, -, hbatches, -⟩ := Store.survey_eq_admits.1 hsurvey
    obtain ⟨c₁, units₁, hsurvey₁, hc₁, hunits₁⟩ := h.survey hsurvey (hs.key_eq hcampaign)
    obtain ⟨version, hreported⟩ := h.reported
    cases hc₁.symm.trans hreported
    rw [hsurvey₁]
    exact h.index_create (hs.active campaign hcampaign) (separate_of_batches hnodup hbatches)
      hunits₁

/-- The next pass finds the campaign, and lists its work units by the same filter. -/
theorem Admitted.listing {tried : List WorkUnit}
    (h : Admitted campaign units batches now tried s s₁) :
    ∃ (c₁ : Campaign) (units₁ : List WorkUnit), s₁.campaign? campaign.key = some c₁ ∧
      (s₁.list .workUnit (unitFilter c₁)).mapM Resource.decode = .ok units₁ ∧
      unitFilter c₁ = unitFilter campaign := by
  obtain ⟨version, hreported⟩ := h.reported
  obtain ⟨units₁, -, hunits₁, -⟩ := h.listed
  exact ⟨_, units₁, hreported, hunits₁, rfl⟩

/-- What a pass has created is not offered by the next one, whatever is discovered then. -/
theorem Leaves.not_planned (h : Leaves key repositories now none s s₁) (hs : Ready key s)
    (hu : u ∈ s.missing (s.planned key repositories now)) {repositories' : List String}
    {u' : WorkUnit} (hu' : u' ∈ s₁.planned key repositories' later) :
    u'.spec.batchIndex ≠ u.spec.batchIndex := by
  obtain ⟨campaign, units, batches, hsurvey, -⟩ := mem_planned (List.mem_of_mem_filter hu)
  rw [Leaves, hsurvey] at h
  rw [Store.planned, hsurvey] at hu
  obtain ⟨hcampaign, -⟩ := Store.survey_eq_admits.1 hsurvey
  obtain ⟨c₁, units₁, hc₁, hunits₁, hfilter⟩ := Admitted.listing h
  rw [hs.key_eq hcampaign] at hc₁
  obtain ⟨batches', hplanned⟩ := planned_of_listed hc₁ hunits₁ hu'
  rw [hfilter] at hunits₁
  intro hindex
  have hcovered := Admitted.covers h hunits₁ hu u'.spec.repositories
  rw [← hindex, not_isCovered_of_mem_create hplanned] at hcovered
  cases hcovered

/-- Which of the planned batches the next listing covers. -/
theorem Leaves.isCovered_iff (h : Leaves key repositories now none s s₁) (hs : Ready key s)
    (hu : u ∈ s.planned key repositories now) :
    ∃ (c : Campaign) (listed : List WorkUnit), s₁.campaign? key = some c ∧
      (s₁.list .workUnit (unitFilter c)).mapM Resource.decode = .ok listed ∧
      (isCovered listed u.spec.batchIndex u.spec.repositories ↔
        ∃ made ∈ s.missing (s.planned key repositories now),
          made.spec.batchIndex = u.spec.batchIndex ∨
            sameRepositories made.spec.repositories u.spec.repositories) := by
  obtain ⟨campaign, units, batches, hsurvey, hmem⟩ := mem_planned hu
  rw [Leaves, hsurvey] at h
  obtain ⟨hcampaign, -⟩ := Store.survey_eq_admits.1 hsurvey
  obtain ⟨c₁, units₁, hc₁, hunits₁, hfilter⟩ := Admitted.listing h
  rw [hs.key_eq hcampaign] at hc₁
  refine ⟨c₁, units₁, hc₁, hunits₁, ?_⟩
  rw [hfilter] at hunits₁
  rw [Store.planned, hsurvey]
  exact Admitted.isCovered_iff h hunits₁ hmem

/-- **What is offered again.** A batch whose work unit has been created by a pass is not offered by
the next one, whatever is discovered then. The next listing covers a planned batch just if a work
unit with its index or with the same repositories has been created. Where no repository is
discovered twice, the next pass offers just the batches whose work units had been there and were
adopted. -/
theorem offers_after_pass (settings : Settings) {s : Store} (hs : s.Reached) {key : Key}
    {campaign : Campaign} (hcampaign : s.campaign? key = some campaign)
    (hactive : campaign.spec.suspended = false) (repositories : List String)
    (now clock : Instant) :
    let stage : Stage := { store := s, repositories := [(key, repositories)] }
    let after := (healedPass settings key now stage clock).2.store
    let planned := s.planned key repositories now
    (∀ u ∈ s.missing planned, ∀ repositories' later, ∀ u' ∈ after.planned key repositories' later,
      u'.spec.batchIndex ≠ u.spec.batchIndex) ∧
    (∀ u ∈ planned, ∃ c listed, after.campaign? key = some c ∧
      (after.list .workUnit (unitFilter c)).mapM Resource.decode = .ok listed ∧
      (isCovered listed u.spec.batchIndex u.spec.repositories ↔
        ∃ made ∈ s.missing planned, made.spec.batchIndex = u.spec.batchIndex ∨
          sameRepositories made.spec.repositories u.spec.repositories)) ∧
    (repositories.Nodup → ∀ later,
      (after.planned key repositories later).map (·.spec.batchIndex) =
        (planned.filter fun u => (s.find? (Resource.slot u)).isSome).map (·.spec.batchIndex)) := by
  intro stage after planned
  have hprepared : Prepared key repositories stage :=
    .of_store hs hcampaign hactive repositories .epoch
  obtain ⟨-, hsolo⟩ := hprepared.healedPass settings now clock
  have hleaves : Leaves key repositories now none s after := hsolo.leaves
  exact ⟨fun u hu repositories' later u' hu' => hleaves.not_planned hprepared.ready hu hu',
    fun u hu => hleaves.isCovered_iff hprepared.ready hu,
    fun hnodup later => hleaves.planned_again hprepared.ready hnodup later⟩

/-- Of two work units one is created and the other one is adopted, and only that is offered
again. -/
theorem offers_after_pass_sample :
    let stage : Stage :=
      { store := strangerStore, repositories := [(sampleCampaign.key, ["first", "second"])] }
    let after := (healedPass {} sampleCampaign.key .epoch stage .epoch).2.store
    (strangerStore.planned sampleCampaign.key ["first", "second"] .epoch).map
        (·.spec.batchIndex) = [0, 1] ∧
      (after.planned sampleCampaign.key ["first", "second"] .epoch).map
        (·.spec.batchIndex) = [1] := by
  have hreached : strangerStore.Reached := ⟨_, rfl⟩
  obtain ⟨campaign, hcampaign, hactive⟩ := campaign?_strangerStore
  obtain ⟨-, -, hagain⟩ := offers_after_pass {} hreached hcampaign hactive ["first", "second"]
    .epoch .epoch
  refine ⟨by decide +kernel, (hagain (by decide) .epoch).trans ?_⟩
  decide +kernel

/-! ## A batch that blocks the next one -/

/-- A campaign with a batch for each repository, of which it has one at a time. -/
def blockedCampaign : Campaign where
  metadata := { key := { space := "fleet", name := "sweep" } }
  spec := { policy := { strategy := .fixedBatchSize, batchSize := 1, parallelism := 1 } }

/-- A work unit that nobody owns, in the place of the first work unit of the campaign. It has come
to its end. -/
def blockingUnit : WorkUnit where
  metadata := { key := { space := "fleet", name := "sweep-batch-0" } }
  spec := { campaign := "sweep", repositories := ["first"], batchIndex := 0, priority := 0,
            configDocument := "sweep-batches" }
  status := { phase := .succeeded }

def blockedStore : Store :=
  ({} : Store).serveAll
    [(.epoch, .create .campaign (Resource.encode blockedCampaign)),
      (.epoch, .create .workUnit (Resource.encode blockingUnit))]

/-- A pass succeeds, and the next one offers once more what it has adopted. -/
theorem offer_repeats :
    ¬ ∀ (settings : Settings) (s : Store), s.Reached → ∀ (key : Key) (campaign : Campaign),
      s.campaign? key = some campaign → campaign.spec.suspended = false →
      ∀ (repositories : List String) (now clock : Instant),
        let stage : Stage := { store := s, repositories := [(key, repositories)] }
        let outcome := healedPass settings key now stage clock
        (∃ action, outcome.1 = .ok action) →
        ∀ u ∈ s.planned key repositories now, ∀ later,
        ∀ u' ∈ outcome.2.store.planned key repositories later,
          u'.spec.batchIndex ≠ u.spec.batchIndex := by
  intro hall
  have hreached : blockedStore.Reached := ⟨_, rfl⟩
  have hcampaign : (blockedStore.campaign? blockedCampaign.key).any (!·.spec.suspended) := by
    decide +kernel
  obtain ⟨campaign, hfound, hactive⟩ := Option.any_eq_true _ _ |>.1 hcampaign
  replace hall := hall {} blockedStore hreached blockedCampaign.key campaign hfound
    (by simpa using hactive) ["first", "second"] .epoch .epoch
  have hok : (healedPass {} blockedCampaign.key .epoch
      { store := blockedStore, repositories := [(blockedCampaign.key, ["first", "second"])] }
      .epoch).1.isOk := by decide +kernel
  have hagain : ∃ u ∈ blockedStore.planned blockedCampaign.key ["first", "second"] .epoch,
      ∃ u' ∈ ((healedPass {} blockedCampaign.key .epoch
        { store := blockedStore, repositories := [(blockedCampaign.key, ["first", "second"])] }
        .epoch).2.store.planned blockedCampaign.key ["first", "second"] .epoch),
        u'.spec.batchIndex = u.spec.batchIndex := by decide +kernel
  obtain ⟨u, hu, u', hu', heq⟩ := hagain
  exact hall (exists_of_isOk hok) u hu .epoch u' hu' heq

end Admission
end CampaignControl
