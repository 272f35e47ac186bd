import CampaignControl.Proofs.Admission.Notices
import CampaignControl.Proofs.Fleet
import CampaignControl.Proofs.Lifecycle.Notices

/-!
# What a fleet makes known

Every task of a fleet makes known what its job allows, whatever is requested from outside
(`Fleet.tells`), and a lifecycle pass that has come to its end owes nothing (`Fleet.clear_of_done`).
A request of a task either changes no phase, or it is of a lifecycle pass and moves the work unit at
the key of the pass (`Fleet.Tells.keeps_or_moves`).
-/

namespace CampaignControl
namespace Fleet

open Lifecycle (unitSlot anybody Clear)

variable {rules : Rules repertoire} {w w₀ w₁ : World repertoire} {t : Task repertoire}
  {job : repertoire.Job} {past front : List Exchange} {key : Key} {uid : Uid} {s s' : Store}

/-- Whether a job is a lifecycle pass over the work unit at a key. -/
def Job.Follows (key : Key) : Job → Prop
  | .pass job => job.Follows key
  | .report .. => False

/-- A request that publishes nothing and leaves the work units alone. -/
def IsReticent : Request → Prop
  | .publish _ => False
  | .store (.create kind _) | .store (.update kind _) => kind ≠ .workUnit
  | .store (.get ..) | .store (.list ..) | .store (.delete ..) | .discover _ | .correlate
  | .measure _ => True

/-- What a job requests, as far as work units and events are concerned. -/
def Tells : Job → List Exchange → Request → Prop
  | .pass (.admission _ key _) => Admission.Tells key
  | .pass (.lifecycle _ key _) => Lifecycle.Tells key
  | .report .. => fun _ => IsReticent

theorem report_tells (key : Key) (change : Execution.Status → Execution.Status) :
    (Substrate.report? key change).Ensures anybody (fun _ => IsReticent) (fun _ _ => True)
      (fun _ _ _ => True) past s := by
  unfold Substrate.report?
  apply Pass.Ensures.bind
  apply Pass.Ensures.modify
  · intro e changed note h
    cases h
    exact ⟨rfl, rfl⟩
  · exact fun _ => trivial
  · exact fun _ _ _ _ _ => nofun
  · exact fun _ _ => trivial
  · exact fun _ _ _ _ => .pure trivial
  · exact fun _ _ _ _ _ _ => .pure trivial
  · exact fun _ _ _ _ _ _ _ _ _ _ => .pure trivial

/-- What a job requests, and that a lifecycle pass owes nothing in the end. -/
theorem program_tells (job : repertoire.Job) (s : Store) :
    (repertoire.program job).Ensures anybody (Tells job)
      (fun _ past _ => ∀ key, job.Follows key → Clear past) [] s := by
  cases job with
  | pass job =>
    cases job with
    | admission settings key now =>
      exact (Admission.reconcile_ensures settings now).mono fun _ _ _ _ _ hfollows => hfollows.elim
    | lifecycle settings key now =>
      exact (Lifecycle.reconcile_tells settings now).mono fun _ _ _ hclear _ _ => hclear
  | report key change =>
    exact Program.Ensures.mono (report_tells key change) fun _ _ _ _ _ hfollows => hfollows.elim

theorem reached (hw : rules.Reachable w) : w.store.Reached := hw.steps.reached ⟨[], rfl⟩

/-- The tasks of a fleet ensure what their jobs do. -/
theorem ensures (hw : rules.Reachable w) (ht : t ∈ w.tasks) :
    ∃ s₀, s₀.Follows w.store ∧ t.rest.Ensures anybody (Tells t.job)
      (fun _ past _ => ∀ key, t.job.Follows key → Clear past) t.past s₀ :=
  @Rules.Steps.ensures {} repertoire rules w Store.Reached (fun h => h.intact.toSound) Tells
    (fun job _ past _ => ∀ key, job.Follows key → Clear past) (fun job s _ => program_tells job s)
    (fun hsteps => reached ⟨hw.during, hsteps⟩) hw.steps t ht

/-- A task requests what its job allows. -/
theorem tells (hw : rules.Reachable w) (ht : t ∈ w.tasks) {r : Request}
    {next : r.Reply → Program (repertoire.Result t.job)} (hrest : t.rest = .ask r next) :
    Tells t.job t.past r := by
  obtain ⟨s₀, hfollows, hensures⟩ := ensures hw ht
  rw [hrest] at hensures
  exact (hensures _ hfollows (reached hw)).1

/-- A lifecycle pass that has come to its end owes nothing. -/
theorem clear_of_done (hw : rules.Reachable w) (ht : t ∈ w.tasks) (hdone : t.rest.isDone)
    (hfollows : t.job.Follows key) : Clear t.past := by
  obtain ⟨s₀, -, hensures⟩ := ensures hw ht
  cases hrest : t.rest with
  | done a =>
    rw [hrest] at hensures
    exact hensures key hfollows
  | ask => rw [hrest] at hdone; cases hdone

/-- What a task has requested its job allowed. -/
theorem Took.tells {e : Exchange} (hw : rules.Reachable w₀)
    (h : rules.Took {} w job front e w₀ w₁) : Tells job front e.request := by
  obtain ⟨t₀, ht₀, rfl, rfl, next, hrest⟩ := h.asked
  exact Fleet.tells hw ht₀ hrest

/-! ## Phases -/

theorem keeps_or_moves_of_update {object : Object} (hpast : Genuine past s) (hs : s.Reached)
    (hread : ∃ s₀ o, ∃ current changed : WorkUnit, .read (unitSlot key) o s₀ ∈ past ∧
      Resource.decode o = .ok current ∧ object = Resource.encode changed ∧
      Lifecycle.Retains current changed ∧ current.status.phase.canMoveTo changed.status.phase)
    (hout : s.Outcome (.update .workUnit object) s') :
    s.KeepsPhases s' ∨ ∃ uid a b, s.Moves key uid a b s' := by
  obtain ⟨s₀, o, current, changed, hmem, hdecode, rfl, hretains, hcan⟩ := hread
  have hmetadata : current.metadata = o.metadata := Resource.metadata_of_decode hdecode
  have hprecedes := hpast _ hmem
  have hsame : (Resource.encode changed).key = o.key :=
    hretains.key.trans (congrArg Metadata.key hmetadata)
  have hkey : (Resource.encode changed).key = key :=
    hsame.trans (hprecedes.sound.key_eq hprecedes.find?)
  -- what is replaced is what has been read
  have hstored : ∀ {old}, s.find? (unitSlot (Resource.encode changed).key) = some old →
      (Resource.encode changed).metadata.version = old.metadata.version → old = o :=
    fun hold hv => hprecedes.eq_of_write hsame
      (hretains.version.trans (congrArg Metadata.version hmetadata)) hold hv
  by_cases hphase : current.status.phase = changed.status.phase
  · refine .inl (hout.keepsPhases fun object old heq hold hv => ?_)
    cases heq
    rw [hstored hold hv, Object.phase?_encode, Object.phase?_of_decode hdecode, hphase]
  · cases hout with
    | idle hsame =>
      refine .inl fun k o o' found found' _ => ?_
      cases found.symm.trans ((hsame _).symm.trans found')
      rfl
    | revise hold hv =>
      obtain ⟨n, -, huid⟩ := hs.intact.toSound.issued hold
      cases hstored hold hv
      rw [hkey] at hold ⊢
      exact .inr ⟨_, _, _, Store.moves_withRevised hold huid hdecode hphase hcan⟩
    | release _ _ _ _ hcascaded =>
      refine .inl fun k o o' found found' _ => ?_
      obtain ⟨o₁, hold, rfl | ⟨time, version, rfl⟩, -⟩ := hcascaded.find?_cases found'
      · cases found.symm.trans hold
        rfl
      · cases found.symm.trans hold
        exact Object.phase?_of_body_eq rfl

/-- A request keeps all phases, or it is of a lifecycle pass and moves its work unit. -/
theorem Tells.keeps_or_moves {r : Request} (h : Tells job past r) (hpast : Genuine past s)
    (hs : s.Reached) {reply : r.Reply} (hanswered : r.Answered s reply s') :
    s.KeepsPhases s' ∨ ∃ key uid a b, job.Follows key ∧ Clear past ∧ s.Moves key uid a b s' := by
  cases r with
  | discover | correlate | publish | measure => exact .inl ((show s' = s from hanswered) ▸ .refl s)
  | store r =>
    have hout := hanswered.outcome hs.intact.toSound
    by_cases hupdate : ∃ object, r = .update .workUnit object
    · obtain ⟨object, rfl⟩ := hupdate
      cases job with
      | report => exact absurd rfl h
      | pass job =>
        cases job with
        | admission => exact absurd rfl h
        | lifecycle settings key now =>
          obtain ⟨hclear, -, hread⟩ := h
          exact (keeps_or_moves_of_update hpast hs hread hout).imp_right
            fun ⟨uid, a, b, hmoves⟩ => ⟨key, uid, a, b, rfl, hclear, hmoves⟩
    · exact .inl (hout.keepsPhases fun object _ heq => absurd ⟨object, heq⟩ hupdate)

end Fleet
end CampaignControl
