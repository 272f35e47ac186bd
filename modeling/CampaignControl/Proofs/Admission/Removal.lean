import CampaignControl.Proofs.Admission.Confluence
import CampaignControl.Proofs.Admission.Requests
import CampaignControl.Proofs.Store.Outcome

/-!
# Campaigns that are removed while passes are at work

The removal of a campaign takes with it what it owns at that moment. A pass that has read the
campaign before goes on to create work units and a configuration document for it, and nothing takes
those away. What is left of a campaign that has been removed is therefore marked for deletion, or
else it has been created too late (`Admission.CreatedLate`, `Admission.left_after_removal`).
-/

namespace CampaignControl

/-- No object with an identity is stored. -/
def Store.Lacks (uid : Uid) (s : Store) : Prop :=
  ∀ slot o, s.find? slot = some o → o.metadata.uid ≠ some uid

namespace Admission

variable {key : Key} {uid : Uid} {past past' : List Exchange} {slot : Slot} {o o' : Object}
  {s s' : Store}

/-- A pass that has read the campaign at a key has created an object in a slot when the campaign had
already gone. -/
def CreatedLate (key : Key) (uid : Uid) (slot : Slot) (o : Object) (past : List Exchange) : Prop :=
  ∃ front e back campaign, past = front ++ e :: back ∧ Knows key campaign front ∧
    campaign.metadata.uid = some uid ∧ e.before.Lacks uid ∧
    (∃ object, e.request = .store (.create slot.kind object)) ∧ e.before.find? slot = none ∧
    ∃ created, e.after.find? slot = some created ∧ created.metadata.uid = o.metadata.uid

theorem CreatedLate.mono (h : CreatedLate key uid slot o past) (hpast : past <+: past') :
    CreatedLate key uid slot o past' := by
  obtain ⟨front, e, back, campaign, rfl, h⟩ := h
  obtain ⟨rest, rfl⟩ := hpast
  exact ⟨front, e, back ++ rest, campaign, by simp, h⟩

theorem CreatedLate.congr (h : CreatedLate key uid slot o past)
    (huid : o'.metadata.uid = o.metadata.uid) : CreatedLate key uid slot o' past := by
  obtain ⟨front, e, back, campaign, hpast, hknows, hown, hlacks, hrequest, hnone, created, hfind,
    heq⟩ := h
  exact ⟨front, e, back, campaign, hpast, hknows, hown, hlacks, hrequest, hnone, created, hfind,
    heq.trans huid.symm⟩

/-- Everything that an identity owns is marked, or has a property. -/
def Marked (uid : Uid) (P : Slot → Object → Prop) (s : Store) : Prop :=
  ∀ slot o, s.find? slot = some o → o.metadata.owner.map (·.uid) = some uid →
    o.metadata.isDeleting ∨ P slot o

/-- What a request leaves of what an identity owns that is not stored after it. -/
theorem Marked.outcome {r : StoreRequest} {P : Slot → Object → Prop} (hout : s.Outcome r s')
    (hnot : ∀ kind key, r ≠ .delete kind key .orphan) (hmarked : s.Lacks uid → Marked uid P s)
    (hcreate : s.Lacks uid → ∀ {slot object} now, r = .create slot.kind object →
      object.key = slot.key → s.find? slot = none → object.metadata.owner.map (·.uid) = some uid →
      s'.find? slot = some (s.newborn now object) → P slot (s.newborn now object))
    (hupdate : ∀ {kind object old}, r = .update kind object →
      s.find? { kind, key := object.key } = some old →
      object.metadata.version = old.metadata.version → object.metadata = old.metadata)
    (hP : ∀ {slot o o'}, o'.metadata.uid = o.metadata.uid → P slot o → P slot o')
    (hgone : s'.Lacks uid) : Marked uid P s' := by
  intro slot o' found howner
  by_cases hlacks : s.Lacks uid
  · have hbefore := hmarked hlacks
    cases hout.source hnot found with
    | same hold => exact hbefore slot o' hold howner
    | marked => exact .inl rfl
    | created now hr hkey hnone => exact .inr (hcreate hlacks now hr hkey hnone howner found)
    | @revised old object hr hkey hv hold =>
      have hmetadata := hupdate hr (hkey ▸ hold) hv
      have howner' : old.metadata.owner.map (·.uid) = some uid := by
        rw [← hmetadata]
        exact howner
      exact (hbefore slot old hold howner').imp_right fun h => hP (o := old) rfl h
  · -- the owner goes with this request
    simp only [Store.Lacks, not_forall, not_not] at hlacks
    obtain ⟨owner, x, hx, huid⟩ := hlacks
    have hleaves : ∀ o, s'.find? owner = some o → o.metadata.uid ≠ x.metadata.uid :=
      fun o hafter heq => hgone owner o hafter (heq.trans huid)
    exact .inl (hout.bereft hnot hx hleaves found ⟨uid, huid, howner⟩)

/-! ## Passes beside a removal -/

/-- The campaign at a key may be deleted at any time, with what it owns. -/
def removalRules (key : Key) : Rules (racers key) where
  excludes _ _ := False
  outside r := r = .delete .campaign key .background

instance (key : Key) : DecidableRel (removalRules key).excludes := fun _ _ => .isFalse id

instance (key : Key) : DecidablePred (removalRules key).outside :=
  fun r => inferInstanceAs (Decidable (r = .delete .campaign key .background))

instance (key : Key) : DecidablePred (removalRules key).during := fun _ => .isTrue trivial

theorem racers_heed (job : (racers key).Job) :
    ((racers key).program job).Heeds (Asks key) (fun _ _ => True) [] :=
  reconcile_heeds job.1 job.2 .nil

/-- The owner of what a pass creates is the campaign that it has read. -/
theorem Asks.exists_owner {kind : Kind} {object : Object}
    (h : Asks key past (.store (.create kind object))) :
    ∃ campaign, Knows key campaign past ∧
      object.metadata.owner.map (·.uid) = campaign.metadata.uid := by
  cases h with
  | @createDocument campaign batches hknows =>
    exact ⟨campaign, hknows, uid_asOwner ..⟩
  | createUnit now hknows => exact ⟨_, hknows, uid_asOwner ..⟩

/-- What is left of a campaign after a step: what has been left before, and what is created. -/
theorem left_step (hs : s.Sound) {w w' : World (racers key)}
    (hsteps : (removalRules key).Steps { store := s } w) (hmove : (removalRules key).Move w w')
    (hmarked : w.store.Lacks uid →
      Marked uid (fun slot o => ∃ t ∈ w.tasks, CreatedLate key uid slot o t.past) w.store)
    (hgone : w'.store.Lacks uid) :
    Marked uid (fun slot o => ∃ t ∈ w'.tasks, CreatedLate key uid slot o t.past) w'.store := by
  have hsound := hsteps.sound hs
  have hmarked' : w.store.Lacks uid →
      Marked uid (fun slot o => ∃ t ∈ w'.tasks, CreatedLate key uid slot o t.past) w.store := by
    intro hlacks slot o found howner
    refine (hmarked hlacks slot o found howner).imp_right ?_
    rintro ⟨t, ht, hlate⟩
    obtain ⟨t', ht', -, hpast⟩ := hmove.exists_past ht
    exact ⟨t', ht', hlate.mono hpast⟩
  have hcongr : ∀ {slot o o'}, o'.metadata.uid = o.metadata.uid →
      (∃ t ∈ w'.tasks, CreatedLate key uid slot o t.past) →
      ∃ t ∈ w'.tasks, CreatedLate key uid slot o' t.past := by
    rintro slot o o' heq ⟨t, ht, hlate⟩
    exact ⟨t, ht, hlate.congr heq⟩
  cases hmove.cause with
  | none hsame =>
    rw [hsame] at hgone ⊢
    exact hmarked' hgone
  | outside now hr hafter =>
    cases hr
    rw [hafter] at hgone ⊢
    apply Marked.outcome (Store.serve_outcome hsound now _) ?_ hmarked' ?_ ?_ hcongr hgone
    · intro kind k heq
      cases heq
    · intro _ slot object now' heq
      cases heq
    · intro kind object old heq
      cases heq
  | @answer t r next reply ht hrest hanswered hmem =>
    have hheeds := hsteps.heeds racers_heed hs t ht
    rw [hrest] at hheeds
    have hasks : Asks key t.past r := hheeds.1
    have hpast := hsteps.genuine hs ht
    cases r with
    | discover | correlate | publish | measure =>
      rw [show w'.store = w.store from hanswered] at hgone ⊢
      exact hmarked' hgone
    | store r =>
      apply Marked.outcome (hanswered.outcome hsound) ?_ hmarked' ?_ ?_ hcongr hgone
      · rintro kind k rfl
        nomatch hasks
      · intro hlacks slot object now hr hkey hnone howner hfind
        subst hr
        obtain ⟨campaign, hknows, heq⟩ := hasks.exists_owner
        exact ⟨_, hmem, t.past, _, [], campaign, rfl, hknows, heq.symm.trans howner, hlacks,
          ⟨object, rfl⟩, hnone, _, hfind, rfl⟩
      · rintro kind object old rfl hold hv
        exact hasks.metadata_eq hpast hold hv

/-- When a campaign has been removed while passes over it were at work, everything that it owned is
marked for deletion, but for what a pass has created that had read the campaign before. -/
theorem left_after_removal (hs : s.Reached) {campaign : Object}
    (found : s.find? (campaignSlot key) = some campaign) (huid : campaign.metadata.uid = some uid)
    {w : World (racers key)} (hsteps : (removalRules key).Steps { store := s } w)
    (hgone : w.store.Lacks uid) :
    Marked uid (fun slot o => ∃ t ∈ w.tasks, CreatedLate key uid slot o t.past) w.store := by
  induction hsteps with
  | refl => exact (hgone _ campaign found huid).elim
  | tail hsteps hstep ih => exact left_step hs.intact.toSound hsteps hstep.move ih hgone

/-- A pass has discovered the repositories of a campaign, but has not written anything. -/
def sampleFront : List (Turn (racers sampleCampaign.key)) :=
  .start ({}, .epoch) :: List.replicate 4 (.answer 0 .epoch {} ["first", "second"])

/-- The pass goes on to its end. -/
def sampleBack : List (Turn (racers sampleCampaign.key)) :=
  List.replicate 9 (.answer 0 .epoch {} [])

/-- The campaign is removed in the middle of the pass, which creates a work unit for it all the
same. -/
theorem exists_left :
    ∃ w : World (racers sampleCampaign.key),
      (removalRules sampleCampaign.key).Steps { store := sampleStore } w ∧
      (∃ t, w.tasks = [t] ∧ t.rest.isDone) ∧ w.store.Lacks (.issued 1) ∧
      ∃ o, w.store.find? { kind := .workUnit, key := ⟨"fleet", "sweep-batch-0"⟩ } = some o ∧
        o.metadata.owner.map (·.uid) = some (.issued 1) ∧ o.metadata.isDeleting = false := by
  let rules := removalRules sampleCampaign.key
  let slot := campaignSlot sampleCampaign.key
  have hplay : (rules.play { store := sampleStore } sampleFront).any fun w =>
      (w.store.find? slot).any (fun o => decide (o.metadata.finalizers = [] ∧
        (w.store.advance.drop slot).ownedBy o.metadata.uid = [])) &&
      (rules.play { w with store := w.store.advance.drop slot } sampleBack).any fun w =>
        decide (w.tasks.length = 1) && w.tasks.all (·.rest.isDone) &&
        w.store.objects.all (fun e => decide (e.2.metadata.uid ≠ some (.issued 1))) &&
        (w.store.find? { kind := .workUnit, key := ⟨"fleet", "sweep-batch-0"⟩ }).any fun o =>
          decide (o.metadata.owner.map (·.uid) = some (.issued 1)) && !o.metadata.isDeleting := by
    decide +kernel
  obtain ⟨w₁, hfront, hplay⟩ := Option.any_eq_true _ _ |>.1 hplay
  obtain ⟨hstored, hplay⟩ := Bool.and_eq_true_iff.1 hplay
  obtain ⟨campaign, hfound, hfree⟩ := Option.any_eq_true _ _ |>.1 hstored
  obtain ⟨w, hback, hw⟩ := Option.any_eq_true _ _ |>.1 hplay
  obtain ⟨hfinalizers, hnone⟩ := of_decide_eq_true hfree
  simp only [Bool.and_eq_true, List.all_eq_true, decide_eq_true_eq] at hw
  obtain ⟨⟨⟨hlength, hdone⟩, hlacks⟩, hunit⟩ := hw
  obtain ⟨t, ht⟩ := List.length_eq_one_iff.1 hlength
  obtain ⟨o, hfind, howner, hstays⟩ :
      ∃ o, w.store.find? { kind := .workUnit, key := ⟨"fleet", "sweep-batch-0"⟩ } = some o ∧
        o.metadata.owner.map (·.uid) = some (.issued 1) ∧ o.metadata.isDeleting = false := by
    simpa only [Option.any_eq_true, Bool.and_eq_true, decide_eq_true_eq, Bool.not_eq_true'] using
      hunit
  have hgone : (w₁.store.serve .epoch (.delete .campaign sampleCampaign.key .background)).2 =
      w₁.store.advance.drop slot :=
    Store.delete_of_childless hfound hfinalizers hnone .epoch nofun
  have hdelete : rules.Step w₁ { w₁ with store := w₁.store.advance.drop slot } := by
    refine ⟨?_, trivial⟩
    rw [← hgone]
    exact .outside .epoch _ rfl
  refine ⟨w, ?_, ⟨t, ht, hdone t (ht ▸ List.mem_cons_self)⟩,
    fun slot o hfind => hlacks _ (Keyed.mem_of_find? hfind), o, hfind, howner, hstays⟩
  exact ((Rules.steps_of_play hfront).tail hdelete).trans (Rules.steps_of_play hback)

/-- The removal of a campaign does not win every race with its admission. -/
theorem removal_loses :
    ¬ ∀ (key : Key) (s : Store) (campaign : Object) (uid : Uid) (w : World (racers key)) (pass),
      s.Reached → s.find? (campaignSlot key) = some campaign → campaign.metadata.uid = some uid →
      (removalRules key).Steps { store := s } w → w.tasks = [pass] → pass.rest.isDone →
      w.store.Lacks uid → ∀ slot o, slot.kind = .workUnit ∨ slot.kind = .configDocument →
        w.store.find? slot = some o → o.metadata.owner.map (·.uid) = some uid →
        o.metadata.isDeleting := by
  intro hwins
  obtain ⟨w, hsteps, ⟨pass, hpass, hdone⟩, hlacks, o, hfind, howner, hstays⟩ := exists_left
  obtain ⟨campaign, hcampaign, huid⟩ : ∃ o,
      sampleStore.find? (campaignSlot sampleCampaign.key) = some o ∧
        o.metadata.uid = some (.issued 1) := ⟨_, rfl, rfl⟩
  have hdeleting := hwins _ sampleStore campaign _ w pass ⟨_, rfl⟩ hcampaign huid hsteps hpass hdone
    hlacks _ o (.inl rfl) hfind howner
  rw [hstays] at hdeleting
  cases hdeleting

/-- The work unit that is left has been created too late. -/
theorem left_after_removal_sample :
    ∃ (w : World (racers sampleCampaign.key)) (o : Object),
      (removalRules sampleCampaign.key).Steps { store := sampleStore } w ∧
      w.store.find? { kind := .workUnit, key := ⟨"fleet", "sweep-batch-0"⟩ } = some o ∧
      ∃ t ∈ w.tasks, CreatedLate sampleCampaign.key (.issued 1)
        { kind := .workUnit, key := ⟨"fleet", "sweep-batch-0"⟩ } o t.past := by
  obtain ⟨w, hsteps, -, hlacks, o, hfind, howner, hstays⟩ := exists_left
  obtain ⟨campaign, hcampaign, huid⟩ : ∃ o,
      sampleStore.find? (campaignSlot sampleCampaign.key) = some o ∧
        o.metadata.uid = some (.issued 1) := ⟨_, rfl, rfl⟩
  refine ⟨w, o, hsteps, hfind, ?_⟩
  rcases left_after_removal ⟨_, rfl⟩ hcampaign huid hsteps hlacks _ o hfind howner with hdel | hlate
  · rw [hstays] at hdel
    cases hdel
  · exact hlate

end Admission
end CampaignControl
