import CampaignControl.Lifecycle.Pass
import CampaignControl.Proofs.Condition

/-!
# The record of a work unit

The status of a work unit is coherent (`WorkUnit.Coherent`): its times, its execution, the
repositories that have been processed and its conditions fit its phase. Recording an execution
and following an observation keep it so, and go on from what has been recorded before
(`WorkUnit.Continues`).
-/

namespace CampaignControl

namespace Observation

variable {type : String} {conditions : List Condition} {now : Instant}

theorem distinct_finish {ended reason message : String} (h : Condition.Distinct conditions) :
    Condition.Distinct (finish ended reason message now conditions) := (h.set _).set _

/-- When the work has ended, the condition of its end holds, and that it is running does not. -/
theorem holds_finish {ended reason message : String} (h : Condition.Distinct conditions) :
    Condition.Holds type (finish ended reason message now conditions) ↔
      type = ended ∨ type ≠ WorkUnit.runningCondition ∧ Condition.Holds type conditions := by
  unfold finish
  dsimp only
  rw [Condition.Distinct.holds_set (h.set _), Condition.Distinct.holds_set h]
  dsimp only
  split
  · next htype => simp [htype]
  · next htype =>
    split
    · next hrunning =>
      subst hrunning
      simp [htype]
    · next hrunning => simp [hrunning, htype]

/-! ## What is recorded of an observation -/

variable (o : Observation) (repositories : List String) (s : WorkUnit.Status)

theorem phase_record : (o.record repositories now s).phase = s.phase := by cases o <;> rfl

theorem execution_record : (o.record repositories now s).execution = s.execution := by
  cases o <;> rfl

theorem startTime_record : (o.record repositories now s).startTime = s.startTime := by
  cases o <;> rfl

theorem completionTime_record :
    (o.record repositories now s).completionTime.isSome ↔
      o.phase.isTerminal ∨ s.completionTime.isSome := by
  cases o <;> simp [record, phase, WorkUnit.Phase.isTerminal]

theorem processedRepositories_record :
    (o.record repositories now s).processedRepositories =
      if o.phase = .succeeded then repositories else s.processedRepositories := by
  cases o <;> rfl

variable {s}

theorem distinct_record (h : Condition.Distinct s.conditions) :
    Condition.Distinct (o.record repositories now s).conditions := by
  cases o with
  | failed | completed => exact distinct_finish h
  | active => exact h.set _
  | pending => exact h

/-- The condition of an observed phase holds. That it is running does not hold at the end. -/
theorem holds_record (now : Instant) (h : Condition.Distinct s.conditions) :
    (Condition.Holds WorkUnit.runningCondition (o.record repositories now s).conditions ↔
      o.phase = .running ∨
        o.phase = .pending ∧ Condition.Holds WorkUnit.runningCondition s.conditions) ∧
    (Condition.Holds WorkUnit.completeCondition (o.record repositories now s).conditions ↔
      o.phase = .succeeded ∨ Condition.Holds WorkUnit.completeCondition s.conditions) ∧
    (Condition.Holds WorkUnit.failedCondition (o.record repositories now s).conditions ↔
      o.phase = .failed ∨ Condition.Holds WorkUnit.failedCondition s.conditions) := by
  have hcomplete : WorkUnit.completeCondition ≠ WorkUnit.runningCondition := by decide
  have hfailed : WorkUnit.failedCondition ≠ WorkUnit.runningCondition := by decide
  have hends : WorkUnit.completeCondition ≠ WorkUnit.failedCondition := by decide
  cases o with
  | failed =>
    simp only [record, phase, holds_finish h]
    simp [hcomplete, hfailed, hfailed.symm, hends]
  | completed =>
    simp only [record, phase, holds_finish h]
    simp [hcomplete, hfailed, hcomplete.symm, hends.symm]
  | active =>
    simp only [record, phase, Condition.Distinct.holds_set h]
    simp [hcomplete, hfailed]
  | pending => simp [record, phase]

end Observation

namespace WorkUnit

variable {u u' u'' moved changed : WorkUnit} {o : Observation} {started : Option Instant}
  {now : Instant}

/-- The parts of a record fit its phase. -/
structure Coherent (u : WorkUnit) : Prop where
  completion : u.status.completionTime.isSome ↔ u.status.phase.isTerminal
  start : u.status.startTime.isSome ↔ u.status.phase ≠ .pending
  execution : u.status.phase ≠ .pending → u.status.execution.isSome
  processed : u.status.processedRepositories =
    if u.status.phase = .succeeded then u.spec.repositories else []
  distinct : Condition.Distinct u.status.conditions
  running : Condition.Holds runningCondition u.status.conditions ↔ u.status.phase = .running
  complete : Condition.Holds completeCondition u.status.conditions ↔ u.status.phase = .succeeded
  failed : Condition.Holds failedCondition u.status.conditions ↔ u.status.phase = .failed

/-- One record is a later state of another one. The phase has only moved forward, what was
recorded once is still there, and a record that had come to the end is the same. -/
structure Continues (u u' : WorkUnit) : Prop where
  spec : u'.spec = u.spec
  phase : u.status.phase.canMoveTo u'.status.phase
  execution : u.status.execution.isSome → u'.status.execution = u.status.execution
  startTime : u.status.startTime.isSome → u'.status.startTime = u.status.startTime
  status : u.status.phase.isTerminal → u'.status = u.status

theorem Phase.canMoveTo_refl (phase : Phase) : phase.canMoveTo phase := by
  simp [Phase.canMoveTo]

theorem Phase.canMoveTo_trans {a b c : Phase} (h : a.canMoveTo b) (h' : b.canMoveTo c) :
    a.canMoveTo c := by
  revert h h'
  cases a <;> cases b <;> cases c <;> decide

namespace Continues

/-- What is not in the record may change. -/
theorem of_eq (hspec : u'.spec = u.spec) (hstatus : u'.status = u.status) : u.Continues u' where
  spec := hspec
  phase := by rw [hstatus]; exact Phase.canMoveTo_refl _
  execution _ := by rw [hstatus]
  startTime _ := by rw [hstatus]
  status _ := hstatus

theorem trans (h : u.Continues u') (h' : u'.Continues u'') : u.Continues u'' where
  spec := h'.spec.trans h.spec
  phase := Phase.canMoveTo_trans h.phase h'.phase
  execution hsome := by
    have heq := h.execution hsome
    rw [← heq]
    exact h'.execution (heq ▸ hsome)
  startTime hsome := by
    have heq := h.startTime hsome
    rw [← heq]
    exact h'.startTime (heq ▸ hsome)
  status hterminal := by
    have heq := h.status hterminal
    rw [← heq]
    exact h'.status (heq ▸ hterminal)

end Continues

/-- What is not in the record has no part in whether it is coherent. -/
theorem Coherent.of_eq (h : u.Coherent) (hspec : u'.spec = u.spec)
    (hstatus : u'.status = u.status) : u'.Coherent := by
  constructor <;> rw [hstatus]
  · exact h.completion
  · exact h.start
  · exact h.execution
  · rw [hspec]; exact h.processed
  · exact h.distinct
  · exact h.running
  · exact h.complete
  · exact h.failed

/-! ## Recording an execution -/

/-- What recording an execution does to a work unit that has none. -/
structure Records (u : WorkUnit) (execution : Key) (changed : WorkUnit) : Prop where
  metadata : changed.metadata = u.metadata
  spec : changed.spec = u.spec
  none : u.status.execution = none
  status : ∃ condition : Condition, condition.type = admitted ∧
    changed.status = { u.status with
      execution := some execution
      conditions := condition.set u.status.conditions }

theorem records_of_recordExecution {execution : Key}
    (h : Lifecycle.recordExecution now execution u = (changed, some ())) :
    Records u execution changed := by
  unfold Lifecycle.recordExecution at h
  split at h
  · cases h
  · next hnone =>
    cases h
    exact ⟨rfl, rfl, Option.not_isSome_iff_eq_none.1 hnone, _, rfl, rfl⟩

namespace Records

variable {execution : Key} (h : Records u execution changed)
include h

/-- Only a pending work unit has no execution. -/
theorem pending (hu : u.Coherent) : u.status.phase = .pending := by
  by_contra hne
  have hsome := hu.execution hne
  rw [h.none] at hsome
  cases hsome

theorem execution_eq : changed.status.execution = some execution := by
  obtain ⟨condition, -, hstatus⟩ := h.status
  rw [hstatus]

theorem coherent (hu : u.Coherent) : changed.Coherent := by
  obtain ⟨condition, htype, hstatus⟩ := h.status
  have hholds : ∀ type, type ≠ admitted →
      (Condition.Holds type changed.status.conditions ↔
        Condition.Holds type u.status.conditions) := by
    intro type hne
    rw [hstatus]
    dsimp only
    rw [hu.distinct.holds_set, htype, if_neg hne]
  have hphase : changed.status.phase = u.status.phase := by rw [hstatus]
  constructor
  · rw [hstatus]; exact hu.completion
  · rw [hstatus]; exact hu.start
  · intro _
    rw [h.execution_eq]
    rfl
  · rw [hstatus, h.spec]; exact hu.processed
  · rw [hstatus]; exact hu.distinct.set _
  · rw [hholds _ (by decide), hphase]; exact hu.running
  · rw [hholds _ (by decide), hphase]; exact hu.complete
  · rw [hholds _ (by decide), hphase]; exact hu.failed

theorem continues (hu : u.Coherent) : u.Continues changed := by
  obtain ⟨condition, -, hstatus⟩ := h.status
  refine ⟨h.spec, ?_, fun hsome => ?_, fun _ => ?_, fun hterminal => ?_⟩
  · rw [hstatus]
    exact Phase.canMoveTo_refl _
  · rw [h.none] at hsome
    cases hsome
  · rw [hstatus]
  · rw [h.pending hu] at hterminal
    cases hterminal

end Records

/-! ## Following an observation -/

/-- What an observation does to a work unit that it moves forward. -/
structure Advance (u : WorkUnit) (o : Observation) (started : Option Instant) (now : Instant)
    (moved : WorkUnit) : Prop where
  metadata : moved.metadata = u.metadata
  spec : moved.spec = u.spec
  status : moved.status = o.record u.spec.repositories now
    { u.status with
      phase := o.phase
      startTime := u.status.startTime <|> some (started.getD now) }
  ne : u.status.phase ≠ o.phase
  canMove : u.status.phase.canMoveTo o.phase

theorem advance_of_advance? (h : u.advance? o started now = some moved) :
    Advance u o started now moved := by
  unfold advance? at h
  split at h
  · cases h
  · next hmove =>
    rw [not_or, Bool.not_eq_true', Bool.not_eq_false] at hmove
    cases h
    exact ⟨rfl, rfl, rfl, hmove.1, hmove.2⟩

namespace Advance

variable (h : Advance u o started now moved)
include h

/-- Only a live work unit moves forward. -/
theorem isLive : u.isLive := by
  have hne := h.ne
  have hmove := h.canMove
  unfold WorkUnit.isLive
  revert hne hmove
  cases u.status.phase <;> cases o.phase <;> decide

theorem phase_eq : moved.status.phase = o.phase := by rw [h.status, Observation.phase_record]

theorem execution_eq : moved.status.execution = u.status.execution := by
  rw [h.status, Observation.execution_record]

theorem startTime_eq :
    moved.status.startTime = (u.status.startTime <|> some (started.getD now)) := by
  rw [h.status, Observation.startTime_record]

/-- The phase and the start have no part in the conditions. -/
theorem conditions_eq :
    moved.status.conditions = (o.record u.spec.repositories now u.status).conditions := by
  rw [h.status]
  cases o <;> rfl

theorem failedRepositories_eq :
    moved.status.failedRepositories = u.status.failedRepositories := by
  rw [h.status]
  cases o <;> rfl

theorem continues : u.Continues moved := by
  refine ⟨h.spec, h.phase_eq ▸ h.canMove, fun _ => h.execution_eq, fun hsome => ?_,
    fun hterminal => ?_⟩
  · obtain ⟨time, htime⟩ := Option.isSome_iff_exists.1 hsome
    rw [h.startTime_eq, htime]
    rfl
  · have hlive := h.isLive
    rw [WorkUnit.isLive, hterminal] at hlive
    cases hlive

/-- A work unit does not move back to the beginning. -/
theorem ne_pending : o.phase ≠ .pending := by
  intro heq
  have hne := h.ne
  have hmove := h.canMove
  rw [heq] at hne hmove
  revert hne hmove
  cases u.status.phase <;> decide

theorem coherent (hu : u.Coherent) (hsome : u.status.execution.isSome) : moved.Coherent := by
  -- a live work unit has not completed, and no condition of an end holds
  have hlive : u.status.phase.isTerminal = false := by simpa [WorkUnit.isLive] using h.isLive
  have hnot : u.status.phase ≠ .succeeded ∧ u.status.phase ≠ .failed := by
    revert hlive
    cases u.status.phase <;> decide
  have hcompletion := hu.completion.not.2 (Bool.eq_false_iff.1 hlive)
  have hprocessed := hu.processed.trans (if_neg hnot.1)
  obtain ⟨before, hbefore, hstatus⟩ : ∃ s : Status, s = { u.status with
      phase := o.phase
      startTime := u.status.startTime <|> some (started.getD now) } ∧
      moved.status = o.record u.spec.repositories now s := ⟨_, rfl, h.status⟩
  have hconditions : before.conditions = u.status.conditions := by rw [hbefore]
  have hdistinct : Condition.Distinct before.conditions := hconditions ▸ hu.distinct
  obtain ⟨hrunning, hcomplete, hfailed⟩ :=
    o.holds_record u.spec.repositories now hdistinct
  have hphase := h.phase_eq
  have hpending := h.ne_pending
  constructor
  · rw [hphase, hstatus, Observation.completionTime_record, hbefore]
    simp [hcompletion]
  · rw [hphase, h.startTime_eq]
    cases u.status.startTime <;> simp [hpending]
  · exact fun _ => h.execution_eq ▸ hsome
  · rw [hphase, h.spec, hstatus, Observation.processedRepositories_record, hbefore]
    simp [hprocessed]
  · rw [hstatus]
    exact o.distinct_record _ hdistinct
  · rw [hphase, hstatus, hrunning]
    simp [hpending]
  · rw [hphase, hstatus, hcomplete, hconditions, hu.complete]
    simp [hnot.1]
  · rw [hphase, hstatus, hfailed, hconditions, hu.failed]
    simp [hnot.2]

end Advance
end WorkUnit
end CampaignControl
