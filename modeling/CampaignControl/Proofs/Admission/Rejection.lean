import CampaignControl.Proofs.Admission.Attempts
import CampaignControl.Proofs.Admission.Validity
import Mathlib.Logic.Relation

/-!
# Rejected passes

A pass over a campaign whose policy is not accepted fails with the error of the policy as soon as it
knows the repositories, and makes the error known, whether its report on the campaign can be written
or not (`Admission.Unfit.lone_reconcile`). The report is all that it may write. Once it has been
written there is nothing left to write, so that of any number of passes one at most changes the
store (`Admission.Unfit.eq_or_eq_of_passes`).
-/

namespace CampaignControl

namespace Admission

open Pass

variable {settings : Settings} {key : Key} {campaign : Campaign} {correlation : Uid} {e : Error}
  {now later : Instant} {log : List Exchange} {s s' s'' : Store}

/-! ## A pass -/

/-- There is a campaign at a key, neither suspended nor being deleted, whose policy is rejected. -/
structure Unfit (key : Key) (campaign : Campaign) (e : Error) (s : Store) : Prop where
  reached : s.Reached
  found : s.campaign? key = some campaign
  stays : campaign.metadata.isDeleting = false
  active : campaign.spec.suspended = false
  rejects : ∀ repositories, Partition.batches repositories campaign.spec.policy = .error e

/-- The campaign after a report that it has been rejected. -/
abbrev reported (e : Error) (now : Instant) (campaign : Campaign) : Campaign :=
  { campaign with status := rejection e now campaign.status }

/-- A report that has been made tells nothing new, whenever it is made again. -/
theorem rejecting_again (e : Error) (now later : Instant) (campaign : Campaign) (m : Metadata) :
    (rejecting e later { reported e now campaign with metadata := m }).2 = none := by
  have hold := Condition.not_isNews_set_at (validity .fails "InvalidConfiguration" e.message now)
    later campaign.status.conditions
  replace hold : (validity .fails "InvalidConfiguration" e.message later).isNews
    (rejection e now campaign.status).conditions = false := hold
  simp only [rejecting, hold, Bool.false_or]
  simp [rejection]

theorem lone_reject {result : Except Error Unit} (hs : s.Reached)
    (hcampaign : s.campaign? campaign.key = some campaign)
    (h : (reject settings campaign correlation now e).run.Lone s result log s') :
    result = .ok () ∧ published log = [rejectionNotice campaign correlation e] ∧
      discovered log = [] ∧
      (s' = s ∨
        (rejecting e now campaign).2 = some () ∧ s.Replaces (reported e now campaign) s') := by
  replace h : (Pass.outcome (modifyCampaign settings campaign (rejecting e now)) >>= fun _ =>
    publish campaign correlation campaign.key (.admissionRejected e.message)).run.Lone s result log
      s' := h
  obtain ⟨outcome, log₁, s₁, log₂, hreport, htell, rfl⟩ := lone_bind_lift h
  obtain ⟨honly, hreports⟩ := lone_modifyCampaign hs hcampaign (fun _ => rfl) hreport
  have hsilent := silent_of_storeOnly honly
  obtain ⟨rfl, rfl, rfl⟩ := lone_publish htell
  refine ⟨rfl, hsilent.published_append _, hsilent.discovered_append _, ?_⟩
  cases hreports with
  | failed => exact .inl rfl
  | same => exact .inl rfl
  | written hnews hwritten => exact .inr ⟨hnews, hwritten⟩

/-- What a pass comes to that rejects the campaign. -/
structure Dismisses (campaign : Campaign) (e : Error) (now : Instant) (s : Store)
    (result : Except Error Action) (log : List Exchange) (s' : Store) : Prop where
  failed : result = .error e
  told : ∃ correlation, published log = [rejectionNotice campaign correlation e]
  written : s' = s ∨
    (rejecting e now campaign).2 = some () ∧ s.Replaces (reported e now campaign) s'

namespace Unfit

/-- A pass that fails before it knows the repositories does nothing, and any other one rejects the
campaign. -/
theorem lone_reconcile {result : Except Error Action} (h : Unfit key campaign e s)
    (hlone : (reconcile settings key now).Lone s result log s') :
    (Silent log ∧ s' = s ∧ ∃ e', result = .error e') ∨
      (∃ repositories, discovered log = [repositories]) ∧
        Dismisses campaign e now s result log s' := by
  obtain rfl : campaign.key = key := Store.campaign_key_eq h.reached h.found
  cases Admission.lone_reconcile h.reached h.found h.stays h.active hlone with
  | idle e' hsilent => exact .inl ⟨hsilent, rfl, e', rfl⟩
  | @discovers _ _ rest _ correlation units repositories _ hdiscovered hpublished _ hrest =>
    rw [afterDiscovery_of_error (h.rejects repositories)] at hrest
    rcases lone_bind hrest with ⟨e', -, hreject⟩ | ⟨_, log₁, s₁, log₂, hreject, hthrow, rfl⟩
    · cases (lone_reject h.reached h.found hreject).1
    obtain ⟨-, htold, hdone, hwritten⟩ := lone_reject h.reached h.found hreject
    obtain ⟨rfl, rfl, rfl⟩ := Program.Lone.of_done hthrow
    rw [List.append_nil] at hdiscovered hpublished
    exact .inr ⟨⟨repositories, by rw [hdiscovered, hdone]⟩,
      rfl, ⟨correlation, hpublished.trans htold⟩, hwritten⟩

/-- A report does not make a campaign fit. -/
theorem of_reported (h : Unfit key campaign e s) (hs' : s'.Reached) {version : Nat}
    (hstored : s'.campaign? campaign.key = some { reported e now campaign with
      metadata := { campaign.metadata with version } }) :
    Unfit key { reported e now campaign with metadata := { campaign.metadata with version } } e
      s' where
  reached := hs'
  found := Store.campaign_key_eq h.reached h.found ▸ hstored
  stays := h.stays
  active := h.active
  rejects := h.rejects

end Unfit

/-! ## Passes after each other -/

/-- Passes over the campaign at a key one after the other, each with its own settings, at its own
time and with whatever faults. -/
def Passes (key : Key) : Store → Store → Prop :=
  Relation.ReflTransGen fun s s' => ∃ (settings : Settings) (now : Instant)
    (result : Except Error Action) (log : List Exchange),
    (reconcile settings key now).Lone s result log s'

theorem Passes.reached (h : Passes key s s') (hs : s.Reached) : s'.Reached := by
  induction h with
  | refl => exact hs
  | tail _ hpass ih =>
    obtain ⟨settings, now, result, log, hlone⟩ := hpass
    exact hlone.reached ih

namespace Unfit

/-- Where there is nothing new to report, passes change nothing. -/
theorem eq_of_passes (h : Unfit key campaign e s)
    (hold : ∀ later, (rejecting e later campaign).2 = none) (hpasses : Passes key s s') :
    s' = s := by
  induction hpasses with
  | refl => rfl
  | tail _ hpass ih =>
    subst ih
    obtain ⟨settings, now, result, log, hlone⟩ := hpass
    rcases h.lone_reconcile hlone with ⟨-, hsame, -⟩ | ⟨-, hdismisses⟩
    · exact hsame
    · refine hdismisses.written.resolve_right fun ⟨hnews, _⟩ => ?_
      cases (hold now).symm.trans hnews

/-- After a report passes change nothing. -/
theorem eq_of_passes_of_reported (h : Unfit key campaign e s) (hs' : s'.Reached) {version : Nat}
    (hstored : s'.campaign? campaign.key = some { reported e now campaign with
      metadata := { campaign.metadata with version } }) (hpasses : Passes key s' s'') : s'' = s' :=
  (h.of_reported hs' hstored).eq_of_passes (fun later => rejecting_again e now later campaign _)
    hpasses

/-- Passes change nothing, or they have made one report. -/
theorem passes (h : Unfit key campaign e s) (hpasses : Passes key s s') :
    s' = s ∨ ∃ now, s.Replaces (reported e now campaign) s' := by
  induction hpasses with
  | refl => exact .inl rfl
  | @tail s₁ s₂ hpasses hpass ih =>
    rcases ih with rfl | ⟨now, hreplaces⟩
    · obtain ⟨settings, now, result, log, hlone⟩ := hpass
      rcases h.lone_reconcile hlone with ⟨-, hsame, -⟩ | ⟨-, hdismisses⟩
      · exact .inl hsame
      · exact hdismisses.written.imp_right fun ⟨_, hreplaces⟩ => ⟨now, hreplaces⟩
    · obtain ⟨version, hstored⟩ := hreplaces.stored
      cases h.eq_of_passes_of_reported (Passes.reached hpasses h.reached) hstored (.single hpass)
      exact .inr ⟨now, hreplaces⟩

/-- Of passes one after the other, one at most changes the store. -/
theorem eq_or_eq_of_passes (h : Unfit key campaign e s) (hpasses : Passes key s s')
    (hpasses' : Passes key s' s'') : s' = s ∨ s'' = s' := by
  refine (h.passes hpasses).imp_right fun ⟨now, hreplaces⟩ => ?_
  obtain ⟨version, hstored⟩ := hreplaces.stored
  exact h.eq_of_passes_of_reported (hpasses.reached h.reached) hstored hpasses'

/-! ## A pass without faults -/

/-- A pass without faults fails, says why once and reports it, and later passes change nothing. -/
theorem healedPass (h : Unfit key campaign e s) (settings : Settings) (now clock : Instant)
    (repositories : List String)
    (hunits : ∃ units : List WorkUnit,
      (s.list .workUnit (unitFilter campaign)).mapM Resource.decode = .ok units) :
    let outcome := Admission.healedPass settings key now
      { store := s, repositories := [(key, repositories)] } clock
    outcome.1 = .error e ∧
      outcome.2.events = [rejectionNotice campaign (.issued 1) e] ∧
      Rejected campaign e now s outcome.2.store ∧
      ∀ s'', Passes key outcome.2.store s'' → s'' = outcome.2.store := by
  intro outcome
  have hkey : campaign.key = key := Store.campaign_key_eq h.reached h.found
  obtain ⟨hresult, hscene⟩ := healedPass_scene_of_store settings s key repositories now clock
  let scene : Scene := { store := s, repositories := [(key, repositories)], clock }
  have hsurvey : scene.store.survey key ((Keyed.find? key scene.repositories).getD []) =
      .rejected campaign e :=
    Store.survey_eq_rejected.2 ⟨h.found, h.stays, hunits, h.rejects _⟩
  have hs : scene.store.Reached := h.reached
  obtain ⟨s', hpass, hrejected⟩ := perform_pass_rejects settings now hs h.active hkey hsurvey
  rw [hpass] at hresult hscene
  have hreached := perform_reached (pass settings key now) hs
  rw [hpass] at hreached
  have hstore : outcome.2.store = s' := congrArg Scene.store hscene
  refine ⟨hresult, congrArg Scene.events hscene, hstore ▸ hrejected, fun s'' hpasses => ?_⟩
  obtain ⟨version, hstored⟩ := hrejected.reported
  rw [hstore] at hpasses ⊢
  exact h.eq_of_passes_of_reported hreached hstored hpasses

end Unfit

end Admission
end CampaignControl
