import CampaignControl.Proofs.Admission.Notices
import CampaignControl.Proofs.Concurrency.Lone
import CampaignControl.Proofs.Lifecycle.Solo
import CampaignControl.Supervisor.Task

/-!
# No target is dropped

A pass that has the store to itself, whatever faults the store has, gives its target up only if the
target needs no more passes (`Target.IsSettled`). After every other pass there is a delay before the
next one, unless the pass has failed for good (`Target.revisited`).
-/

namespace CampaignControl
namespace Target

open Lifecycle (unitSlot)

/-- A target needs no more passes: its campaign is not stored or is to be deleted, or its work unit
is not stored or is to be deleted and has lost its finalizer. -/
def IsSettled (s : Store) : Target → Prop
  | campaign key => Admission.IsGone key s
  | workUnit key => Lifecycle.IsSettled key s

/-- A target is passed again after a pass with this result, or the pass has failed for good. -/
def IsRevisited (policy : RetryPolicy) (streaks : Streaks) (target : Target)
    (result : Except Error Action) : Prop :=
  (∃ delay, streaks.delay? policy target result = some delay) ∨ ∃ e, result = .error e ∧ e.isFatal

variable {settings : Settings} {time : Instant} {target : Target} {stage after : Stage}
  {result : Except Error Action}

/-- Where a pass waits for a change, there is nothing left to do. -/
theorem isSettled_of_awaitChange (hs : stage.store.Sound) (hrules : stage.rules = [])
    (hrun : stage.run (target.pass settings time) = (.ok .awaitChange, after)) :
    target.IsSettled after.store := by
  obtain ⟨log, hlone, -⟩ := Stage.lone (target.pass settings time) hrules
  rw [hrun] at hlone
  cases target with
  | campaign key =>
    have hensures := @Admission.reconcile_ensures .none key [] stage.store settings time
    exact (hensures.lone hlone hs).1 rfl
  | workUnit key => exact ((Lifecycle.reconcile_ensures settings time hs).lone hlone hs).1.1 rfl

theorem isRevisited_of_ne (policy : RetryPolicy) (streaks : Streaks) (target : Target)
    (h : result ≠ .ok .awaitChange) : IsRevisited policy streaks target result := by
  cases result with
  | ok action =>
    cases action with
    | requeue nanoseconds => exact .inl ⟨nanoseconds, rfl⟩
    | awaitChange => exact absurd rfl h
  | error e =>
    cases hfatal : e.isFatal with
    | true => exact .inr ⟨e, rfl, hfatal⟩
    | false => exact .inl ⟨_, if_neg (Bool.eq_false_iff.1 hfatal)⟩

/-- **No target that needs another pass is dropped.** A pass that nobody disturbs waits for a change
only if its target is settled; otherwise the target is passed again after a delay, or the pass has
failed for good. In particular a work unit is passed again that is stored after the pass, unless it
is to be deleted and has lost its finalizer. -/
theorem revisited (hs : stage.store.Sound) (hrules : stage.rules = [])
    (hrun : stage.run (target.pass settings time) = (result, after)) (policy : RetryPolicy)
    (streaks : Streaks) :
    (result = .ok .awaitChange → target.IsSettled after.store) ∧
      (result ≠ .ok .awaitChange → IsRevisited policy streaks target result) ∧
      ∀ key o, target = .workUnit key → after.store.find? (unitSlot key) = some o →
        (o.metadata.isDeleting → o.metadata.hasFinalizer WorkUnit.finalizer) →
        IsRevisited policy streaks target result := by
  have hsettled : result = .ok .awaitChange → target.IsSettled after.store := by
    rintro rfl
    exact isSettled_of_awaitChange hs hrules hrun
  refine ⟨hsettled, isRevisited_of_ne policy streaks target, fun key o htarget found hfin => ?_⟩
  apply isRevisited_of_ne
  intro hwaits
  subst htarget
  obtain ⟨hdel, hfree⟩ := hsettled hwaits o found
  cases hfree.symm.trans (hfin hdel)

/-- A work unit that has been deleted while its execution could not be, because of an outage. -/
def sampleStage : Stage where
  store := ({} : Store).serveAll
    [(.epoch, .create .workUnit (Resource.encode
        { metadata :=
            { key := { space := "fleet", name := "sweep-batch-0" }
              finalizers := [WorkUnit.finalizer] }
          spec :=
            { campaign := "sweep", repositories := ["first"], batchIndex := 0, priority := 0
              configDocument := "sweep-batches" } : WorkUnit })),
      (.epoch, .delete .workUnit { space := "fleet", name := "sweep-batch-0" } .background)]
  faults := { outage := true }

theorem revisited_sample :
    ∃ result after, sampleStage.run (Target.pass {} .epoch
        (.workUnit { space := "fleet", name := "sweep-batch-0" })) = (result, after) ∧
      result ≠ .ok .awaitChange ∧
      IsRevisited {} {} (.workUnit { space := "fleet", name := "sweep-batch-0" }) result := by
  have hs : sampleStage.store.Sound := (Store.Reached.intact ⟨_, rfl⟩).toSound
  have hne : (sampleStage.run (Target.pass {} .epoch
      (.workUnit { space := "fleet", name := "sweep-batch-0" }))).1 ≠ .ok .awaitChange := by
    decide +kernel
  exact ⟨_, _, rfl, hne, (revisited hs rfl rfl {} {}).2.1 hne⟩

end Target
end CampaignControl
