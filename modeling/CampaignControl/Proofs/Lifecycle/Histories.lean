import CampaignControl.Admission.Plan
import CampaignControl.Proofs.Lifecycle.Change

/-!
# Histories of observations

A report of an execution moves its work unit forward or leaves it as it is (`Report.apply_cases`).
Of a whole history two reports count, the first one of a beginning and the first one of an end
(`applyAll_of_pending`), and what becomes of a new work unit is told by these two
(`Lifecycle.ToldBy`).
-/

namespace CampaignControl

namespace Observation

/-- When the work has ended, if that is observed. -/
def endTime? : Observation → Option Instant
  | failed _ time | completed time => time
  | active | pending => none

/-- What is said of a failure. -/
def message? : Observation → Option String
  | failed message _ => message
  | completed _ | active | pending => none

/-- The conditions that an observation adds to those of a new work unit. -/
def conditions (now : Instant) : Observation → List Condition
  | failed message _ => finish WorkUnit.failedCondition "ExecutionFailed" (message.getD "") now []
  | completed _ => finish WorkUnit.completeCondition "ExecutionComplete" "" now []
  | active =>
    [{ type := WorkUnit.runningCondition, status := .holds, reason := "ExecutionActive"
       since := now }]
  | pending => []

variable {conditions rest : List Condition} {now before : Instant}

theorem ended_record {o : Observation} (ho : o.phase.isTerminal) (repositories : List String)
    (now : Instant) (s : WorkUnit.Status) :
    (o.record repositories now s).completionTime = some (o.endTime?.getD now) ∧
      (o.record repositories now s).message = o.message? := by
  cases o with
  | failed | completed => exact ⟨rfl, rfl⟩
  | active | pending => cases ho

/-- An observation leaves the condition of the admission in front. -/
theorem conditions_record_append (o : Observation) (repositories : List String)
    (s : WorkUnit.Status) (h : ∀ c ∈ conditions, c.type = WorkUnit.admitted)
    (hs : s.conditions = conditions ++ rest) :
    (o.record repositories now s).conditions =
      conditions ++ (o.record repositories now { s with conditions := rest }).conditions := by
  have hnot : ∀ type ≠ WorkUnit.admitted, type ∉ conditions.map (·.type) := by
    intro type hne hmem
    obtain ⟨c, hc, rfl⟩ := List.mem_map.1 hmem
    exact hne (h c hc)
  have hrunning := hnot WorkUnit.runningCondition (by decide)
  have hcomplete := hnot WorkUnit.completeCondition (by decide)
  have hfailed := hnot WorkUnit.failedCondition (by decide)
  cases o with
  | failed =>
    simp only [record, finish]
    rw [hs, Condition.set_append hrunning, Condition.set_append hfailed]
  | completed =>
    simp only [record, finish]
    rw [hs, Condition.set_append hrunning, Condition.set_append hcomplete]
  | active =>
    simp only [record]
    rw [hs, Condition.set_append hrunning]
  | pending => exact hs

theorem conditions_record_nil (o : Observation) (repositories : List String)
    (s : WorkUnit.Status) :
    (o.record repositories now { s with conditions := [] }).conditions = o.conditions now := by
  cases o <;> rfl

/-- An end takes the place of the condition that the work is running. -/
theorem conditions_record_active {o : Observation} (ho : o.phase.isTerminal)
    (repositories : List String) (s : WorkUnit.Status) :
    (o.record repositories now { s with conditions := active.conditions before }).conditions =
      o.conditions now := by
  cases o with
  | failed | completed => rfl
  | active | pending => cases ho

end Observation

namespace Lifecycle

/-- What is reported of an execution at a time. -/
structure Report where
  observation : Observation
  started : Option Instant := none
  now : Instant
  deriving DecidableEq, Repr, Inhabited

namespace Report

def isBeginning (r : Report) : Bool := r.observation.phase != .pending

def isEnd (r : Report) : Bool := r.observation.phase.isTerminal

/-- The start of the execution, as far as this report tells. -/
def start (r : Report) : Instant := r.started.getD r.now

/-- The work unit after a report, and the phase that it has left. -/
def apply (r : Report) (u : WorkUnit) : WorkUnit × Option WorkUnit.Phase :=
  follow r.now r.observation r.started u

end Report

/-- The work unit after a history of reports. -/
def applyAll (u : WorkUnit) (reports : List Report) : WorkUnit :=
  reports.foldl (fun u r => (r.apply u).1) u

/-- The first report of a history that is not of a pending execution. -/
def beginning? (reports : List Report) : Option Report := reports.find? Report.isBeginning

/-- The first report of a history that is of a finished execution. -/
def ending? (reports : List Report) : Option Report := reports.find? Report.isEnd

/-! ## One report -/

namespace Report

variable {r r' : Report} {u : WorkUnit}

theorem apply_cases (r : Report) (u : WorkUnit) :
    (r.apply u = (u, none) ∧
      (u.status.phase = r.observation.phase ∨
        u.status.phase.canMoveTo r.observation.phase = false)) ∨
    ∃ moved, r.apply u = (moved, some u.status.phase) ∧
      WorkUnit.Advance u r.observation r.started r.now moved := by
  unfold apply follow
  cases hadvance : u.advance? r.observation r.started r.now with
  | some moved => exact .inr ⟨moved, rfl, WorkUnit.advance_of_advance? hadvance⟩
  | none =>
    refine .inl ⟨rfl, ?_⟩
    unfold WorkUnit.advance? at hadvance
    split at hadvance
    · next hstays => exact hstays.imp_right fun h => by simpa using h
    · cases hadvance

/-- What a report does to a work unit that it moves forward. -/
theorem advance_of_canMoveTo (hne : u.status.phase ≠ r.observation.phase)
    (hcan : u.status.phase.canMoveTo r.observation.phase) :
    WorkUnit.Advance u r.observation r.started r.now (r.apply u).1 := by
  rcases apply_cases r u with ⟨-, hstays⟩ | ⟨moved, heq, hadvance⟩
  · rcases hstays with heq | hcannot
    · exact absurd heq hne
    · rw [hcan] at hcannot
      cases hcannot
  · rwa [heq]

theorem apply_of_stays (h : u.status.phase = r.observation.phase ∨
    u.status.phase.canMoveTo r.observation.phase = false) : r.apply u = (u, none) := by
  rcases apply_cases r u with ⟨heq, -⟩ | ⟨moved, -, hadvance⟩
  · exact heq
  · rcases h with heq | hcannot
    · exact absurd heq hadvance.ne
    · rw [hadvance.canMove] at hcannot
      cases hcannot

/-- The phase that is left is told exactly if the work unit changes. -/
theorem apply_eq_some_iff {old : WorkUnit.Phase} :
    (r.apply u).2 = some old ↔ (r.apply u).1 ≠ u ∧ u.status.phase = old := by
  rcases apply_cases r u with ⟨heq, -⟩ | ⟨moved, heq, hadvance⟩
  · simp [heq]
  · have hne : moved ≠ u := by
      rintro rfl
      exact hadvance.ne hadvance.phase_eq
    simp [heq, hne]

/-- A report of the same phase as the report before changes nothing. -/
theorem apply_apply (h : r'.observation.phase = r.observation.phase) (u : WorkUnit) :
    r'.apply (r.apply u).1 = ((r.apply u).1, none) := by
  apply apply_of_stays
  rw [h]
  rcases apply_cases r u with ⟨heq, hstays⟩ | ⟨moved, heq, hadvance⟩
  · rwa [heq]
  · rw [heq]
    exact .inl hadvance.phase_eq

theorem apply_of_isTerminal (h : u.status.phase.isTerminal) (r : Report) :
    r.apply u = (u, none) := by
  apply apply_of_stays
  revert h
  cases u.status.phase <;> cases r.observation.phase <;> decide

theorem isBeginning_of_isEnd (h : r.isEnd) : r.isBeginning := by
  unfold isEnd at h
  unfold isBeginning
  revert h
  cases r.observation.phase <;> decide

/-- What has begun and not ended is active. -/
theorem active_of_not_isEnd (h : r.isBeginning) (hend : ¬ r.isEnd) :
    r.observation = .active := by
  unfold isBeginning at h
  unfold isEnd at hend
  cases hobservation : r.observation with
  | active => rfl
  | pending =>
    rw [hobservation] at h
    cases h
  | failed | completed =>
    rw [hobservation] at hend
    exact absurd rfl hend

/-- A pending work unit begins with every report of a beginning. -/
theorem advance_of_isBeginning (h : u.status.phase = .pending) (hr : r.isBeginning) :
    WorkUnit.Advance u r.observation r.started r.now (r.apply u).1 := by
  unfold isBeginning at hr
  refine advance_of_canMoveTo ?_ ?_ <;> rw [h]
  · exact fun heq => (bne_iff_ne.1 hr) heq.symm
  · cases r.observation.phase <;> rfl

/-- A live work unit ends with every report of an end. -/
theorem advance_of_isEnd (h : u.isLive) (hr : r.isEnd) :
    WorkUnit.Advance u r.observation r.started r.now (r.apply u).1 := by
  unfold WorkUnit.isLive at h
  unfold isEnd at hr
  refine advance_of_canMoveTo ?_ ?_ <;> revert h hr <;>
    cases u.status.phase <;> cases r.observation.phase <;> decide

theorem isTerminal_apply (h : u.isLive) (hr : r.isEnd) :
    (r.apply u).1.status.phase.isTerminal := by
  rw [(advance_of_isEnd h hr).phase_eq]
  exact hr

end Report

/-! ## Histories -/

variable {u v : WorkUnit} {reports : List Report} {b t : Report}

theorem applyAll_append (u : WorkUnit) (front back : List Report) :
    applyAll u (front ++ back) = applyAll (applyAll u front) back := List.foldl_append

theorem applyAll_of_isTerminal (h : u.status.phase.isTerminal) (reports : List Report) :
    applyAll u reports = u := by
  induction reports with
  | nil => rfl
  | cons r rest ih =>
    show applyAll (r.apply u).1 rest = u
    rw [Report.apply_of_isTerminal h, ih]

/-- Of a running work unit, only the first report of an end counts. -/
theorem applyAll_of_running (h : u.status.phase = .running) (reports : List Report) :
    applyAll u reports = applyAll u (ending? reports).toList := by
  have hlive : u.isLive := by rw [WorkUnit.isLive, h]; rfl
  induction reports with
  | nil => rfl
  | cons r rest ih =>
    show applyAll (r.apply u).1 rest = _
    unfold ending?
    by_cases hend : r.isEnd
    · rw [List.find?_cons_of_pos hend, applyAll_of_isTerminal (Report.isTerminal_apply hlive hend)]
      rfl
    · have hstays : r.apply u = (u, none) := by
        apply Report.apply_of_stays
        unfold Report.isEnd at hend
        rw [h]
        revert hend
        cases r.observation.phase <;> decide
      rw [List.find?_cons_of_neg hend, hstays, ih]
      rfl

/-- Of a pending work unit, only the first report of a beginning and the first one of an end
count. They may be the same. -/
theorem applyAll_of_pending (h : u.status.phase = .pending) (reports : List Report) :
    applyAll u reports = applyAll u ((beginning? reports).toList ++ (ending? reports).toList) := by
  have hlive : u.isLive := by rw [WorkUnit.isLive, h]; rfl
  induction reports with
  | nil => rfl
  | cons r rest ih =>
    unfold beginning? ending?
    by_cases hbegins : r.isBeginning
    · rw [List.find?_cons_of_pos hbegins, Option.toList_some, List.singleton_append]
      show applyAll (r.apply u).1 rest = applyAll (r.apply u).1 _
      -- an end is found twice; the second time it changes nothing
      by_cases hend : r.isEnd
      · have hterminal := Report.isTerminal_apply hlive hend
        rw [applyAll_of_isTerminal hterminal, applyAll_of_isTerminal hterminal]
      · have hrunning : (r.apply u).1.status.phase = .running := by
          rw [(Report.advance_of_isBeginning h hbegins).phase_eq,
            Report.active_of_not_isEnd hbegins hend]
          rfl
        rw [List.find?_cons_of_neg hend]
        exact applyAll_of_running hrunning rest
    · have hend : ¬ r.isEnd := fun hend => hbegins (Report.isBeginning_of_isEnd hend)
      have hpending : r.observation.phase = .pending := by
        simpa [Report.isBeginning] using hbegins
      rw [List.find?_cons_of_neg hbegins, List.find?_cons_of_neg hend]
      show applyAll (r.apply u).1 rest = _
      rw [Report.apply_of_stays (.inl (h.trans hpending.symm)), ih]
      rfl

/-- What has begun with its end has only this one report that counts. -/
theorem ending?_of_beginning? (h : beginning? reports = some b) (hend : b.isEnd) :
    ending? reports = some b := by
  unfold beginning? at h
  unfold ending?
  rw [List.find?_eq_some_iff_append] at h ⊢
  obtain ⟨-, front, back, heq, hbefore⟩ := h
  refine ⟨hend, front, back, heq, fun r hr => ?_⟩
  have hnot := hbefore r hr
  rw [Bool.not_eq_true'] at hnot ⊢
  exact Bool.eq_false_iff.2 fun hr => by simp [Report.isBeginning_of_isEnd hr] at hnot

theorem ending?_of_beginning?_eq_none (h : beginning? reports = none) : ending? reports = none := by
  unfold beginning? at h
  unfold ending?
  rw [List.find?_eq_none] at h ⊢
  exact fun r hr hend => h r hr (Report.isBeginning_of_isEnd hend)

/-- What has begun is active, if it has not ended. -/
theorem any_active_eq (h : ending? reports = none) :
    (reports.any fun r => r.observation = .active) = (beginning? reports).isSome := by
  rw [Bool.eq_iff_iff, List.any_eq_true, beginning?, List.find?_isSome]
  refine exists_congr fun r => and_congr_right fun hr => ?_
  have hnot := List.find?_eq_none.1 h r hr
  rw [decide_eq_true_iff]
  constructor
  · intro hactive
    rw [Report.isBeginning, hactive]
    rfl
  · exact fun hbegins => Report.active_of_not_isEnd hbegins hnot

/-! ## New work units -/

/-- A work unit of which nothing has been observed. -/
structure IsNew (u : WorkUnit) : Prop where
  phase : u.status.phase = .pending
  startTime : u.status.startTime = none
  completionTime : u.status.completionTime = none
  message : u.status.message = none
  processed : u.status.processedRepositories = []
  conditions : ∀ c ∈ u.status.conditions, c.type = WorkUnit.admitted

theorem isNew_workUnit (campaign : Campaign) (index : Nat) (batch : Batch) (built : Instant) :
    IsNew (Admission.workUnit campaign index batch built) where
  phase := rfl
  startTime := rfl
  completionTime := rfl
  message := rfl
  processed := rfl
  conditions c hc := by
    cases List.mem_singleton.1 hc
    rfl

/-- The work unit that a history leaves has ended with this report. -/
structure EndsWith (u : WorkUnit) (t : Report) (v : WorkUnit) : Prop where
  phase : v.status.phase = t.observation.phase
  completionTime : v.status.completionTime = some (t.observation.endTime?.getD t.now)
  message : v.status.message = t.observation.message?
  processed : v.status.processedRepositories =
    if t.observation.phase = .succeeded then u.spec.repositories else []

/-- The work unit that a history leaves has not ended. -/
structure GoesOn (reports : List Report) (v : WorkUnit) : Prop where
  phase : v.status.phase =
    if reports.any (·.observation = .active) then .running else .pending
  completionTime : v.status.completionTime = none
  message : v.status.message = none
  processed : v.status.processedRepositories = []

/-- What a history makes of a new work unit. -/
structure ToldBy (u : WorkUnit) (reports : List Report) (v : WorkUnit) : Prop where
  metadata : v.metadata = u.metadata
  spec : v.spec = u.spec
  execution : v.status.execution = u.status.execution
  failed : v.status.failedRepositories = u.status.failedRepositories
  startTime : v.status.startTime = (beginning? reports).map Report.start
  ended : ∀ t, ending? reports = some t → EndsWith u t v
  goesOn : ending? reports = none → GoesOn reports v
  conditions : v.status.conditions = u.status.conditions ++
    (((ending? reports).or (beginning? reports)).map
      fun r => r.observation.conditions r.now).getD []

theorem endsWith_of_advance {w : WorkUnit}
    (h : WorkUnit.Advance w t.observation t.started t.now v) (ht : t.isEnd)
    (hspec : w.spec = u.spec) (hprocessed : w.status.processedRepositories = []) :
    EndsWith u t v := by
  have hstatus := h.status
  rw [hspec] at hstatus
  refine ⟨h.phase_eq, ?_, ?_, ?_⟩ <;> rw [hstatus]
  · exact (Observation.ended_record ht ..).1
  · exact (Observation.ended_record ht ..).2
  · rw [Observation.processedRepositories_record]
    exact if_congr Iff.rfl rfl hprocessed

theorem conditions_of_advance (h : IsNew u)
    (hb : WorkUnit.Advance u b.observation b.started b.now v) :
    v.status.conditions = u.status.conditions ++ b.observation.conditions b.now := by
  rw [hb.conditions_eq,
    Observation.conditions_record_append _ _ _ h.conditions (List.append_nil _).symm,
    Observation.conditions_record_nil]

/-- Nothing has begun. -/
theorem toldBy_of_none (h : IsNew u) (hbegins : beginning? reports = none) :
    ToldBy u reports u := by
  have hends := ending?_of_beginning?_eq_none hbegins
  refine ⟨rfl, rfl, rfl, rfl, ?_, fun t ht => ?_,
    fun _ => ⟨?_, h.completionTime, h.message, h.processed⟩, ?_⟩
  · rw [hbegins]
    exact h.startTime
  · rw [hends] at ht
    cases ht
  · rw [any_active_eq hends, hbegins]
    exact h.phase
  · rw [hends, hbegins]
    exact (List.append_nil _).symm

/-- Only the report of the beginning has counted, which may be the one of the end as well. -/
theorem toldBy_of_begun (h : IsNew u) (hbegins : beginning? reports = some b)
    (hends : ∀ t, ending? reports = some t → t = b)
    (hb : WorkUnit.Advance u b.observation b.started b.now v) : ToldBy u reports v := by
  have hbeginning : b.isBeginning := List.find?_some hbegins
  refine ⟨hb.metadata, hb.spec, hb.execution_eq, hb.failedRepositories_eq, ?_, fun t ht => ?_,
    fun hnone => ?_, ?_⟩
  · rw [hb.startTime_eq, h.startTime, hbegins]
    rfl
  · have hend : t.isEnd := List.find?_some ht
    cases hends t ht
    exact endsWith_of_advance hb hend rfl h.processed
  · have hactive := Report.active_of_not_isEnd hbeginning fun hend => by
      rw [ending?_of_beginning? hbegins hend] at hnone
      cases hnone
    have hstatus := hb.status
    rw [hactive] at hstatus
    refine ⟨?_, ?_, ?_, ?_⟩
    · rw [any_active_eq hnone, hbegins, hb.phase_eq, hactive]
      rfl
    all_goals rw [hstatus]
    · exact h.completionTime
    · exact h.message
    · exact h.processed
  · have hcounts : (ending? reports).or (beginning? reports) = some b := by
      rw [hbegins]
      cases ht : ending? reports with
      | none => rfl
      | some t => rw [hends t ht]; rfl
    rw [hcounts]
    exact conditions_of_advance h hb

/-- The work unit has been active before its end. -/
theorem toldBy_of_ended {w : WorkUnit} (h : IsNew u) (hbegins : beginning? reports = some b)
    (hends : ending? reports = some t) (hactive : b.observation = .active)
    (hb : WorkUnit.Advance u b.observation b.started b.now w)
    (ht : WorkUnit.Advance w t.observation t.started t.now v) : ToldBy u reports v := by
  have hend : t.isEnd := List.find?_some hends
  have hw := hb.status
  rw [hactive] at hw
  refine ⟨ht.metadata.trans hb.metadata, ht.spec.trans hb.spec,
    ht.execution_eq.trans hb.execution_eq,
    ht.failedRepositories_eq.trans hb.failedRepositories_eq, ?_, fun t' ht' => ?_,
    fun hnone => ?_, ?_⟩
  · rw [ht.startTime_eq, hb.startTime_eq, h.startTime, hbegins]
    rfl
  · cases hends.symm.trans ht'
    refine endsWith_of_advance ht hend hb.spec ?_
    rw [hw]
    exact h.processed
  · rw [hends] at hnone
    cases hnone
  · have hconditions := conditions_of_advance h hb
    rw [hactive] at hconditions
    rw [hends, ht.conditions_eq,
      Observation.conditions_record_append _ _ _ h.conditions hconditions,
      Observation.conditions_record_active hend]
    rfl

theorem toldBy_of_isNew (h : IsNew u) (reports : List Report) :
    ToldBy u reports (applyAll u reports) := by
  have hlive : u.isLive := by rw [WorkUnit.isLive, h.phase]; rfl
  rw [applyAll_of_pending h.phase]
  cases hbegins : beginning? reports with
  | none =>
    rw [ending?_of_beginning?_eq_none hbegins]
    exact toldBy_of_none h hbegins
  | some b =>
    have hb := Report.advance_of_isBeginning h.phase (List.find?_some hbegins)
    by_cases hend : b.isEnd
    · have hends := ending?_of_beginning? hbegins hend
      have hagain : b.apply (b.apply u).1 = ((b.apply u).1, none) := Report.apply_apply rfl u
      have htwice : applyAll u ((some b).toList ++ (some b).toList) = (b.apply u).1 := by
        show (b.apply (b.apply u).1).1 = _
        rw [hagain]
      rw [hends, htwice]
      exact toldBy_of_begun h hbegins (fun t ht => Option.some.inj (ht.symm.trans hends)) hb
    · have hactive := Report.active_of_not_isEnd (List.find?_some hbegins) hend
      cases hends : ending? reports with
      | none =>
        refine toldBy_of_begun h hbegins (fun t ht => ?_) hb
        rw [hends] at ht
        cases ht
      | some t =>
        have hrunning : (b.apply u).1.isLive := by
          rw [WorkUnit.isLive, hb.phase_eq, hactive]
          rfl
        exact toldBy_of_ended h hbegins hends hactive hb
          (Report.advance_of_isEnd hrunning (List.find?_some hends))

/-- A history with an end leaves a work unit that has come to its end. -/
theorem isTerminal_applyAll (h : IsNew u) (hends : (ending? reports).isSome) :
    (applyAll u reports).status.phase.isTerminal := by
  obtain ⟨t, ht⟩ := Option.isSome_iff_exists.1 hends
  have hend : t.isEnd := List.find?_some ht
  rw [((toldBy_of_isNew h reports).ended t ht).phase]
  exact hend

/-- **The first end is the end.** A work unit that is built for a batch is told by the first report
of a beginning and the first one of an end of every history (`ToldBy`). What comes after an end
changes nothing. A report tells the phase that is left exactly if it changes the work unit, and
changes nothing when it is repeated, whenever that is. -/
theorem history_tells (campaign : Campaign) (index : Nat) (batch : Batch) (built : Instant)
    (reports : List Report) :
    ToldBy (Admission.workUnit campaign index batch built) reports
      (applyAll (Admission.workUnit campaign index batch built) reports) ∧
    (∀ front r back, reports = front ++ r :: back → (ending? front).isSome →
      applyAll (Admission.workUnit campaign index batch built) reports =
        applyAll (Admission.workUnit campaign index batch built) front ∧
      r.apply (applyAll (Admission.workUnit campaign index batch built) front) =
        (applyAll (Admission.workUnit campaign index batch built) front, none)) ∧
    ∀ (r : Report) (u : WorkUnit),
      (∀ old, (r.apply u).2 = some old ↔ (r.apply u).1 ≠ u ∧ u.status.phase = old) ∧
      ∀ r' : Report, r'.observation = r.observation →
        r'.apply (r.apply u).1 = ((r.apply u).1, none) := by
  have hnew := isNew_workUnit campaign index batch built
  refine ⟨toldBy_of_isNew hnew reports, ?_, fun r u => ⟨fun _ => Report.apply_eq_some_iff, ?_⟩⟩
  · rintro front r back rfl hends
    have hterminal := isTerminal_applyAll hnew hends
    rw [applyAll_append]
    exact ⟨applyAll_of_isTerminal hterminal _, Report.apply_of_isTerminal hterminal r⟩
  · exact fun r' hr => Report.apply_apply (congrArg Observation.phase hr) u

/-- A failure that is reported without the time of it. -/
def sampleFailure : Report where
  observation := .failed (some "disk full") none
  now := { second := 20, nano := 0 }

/-- A completion that is reported after the failure. -/
def sampleCompletion : Report where
  observation := .completed (some { second := 15, nano := 0 })
  now := { second := 30, nano := 0 }

/-- Six reports, of which the second one and the fourth one count. -/
def sampleHistory : List Report :=
  [{ observation := .pending, now := .epoch },
    { observation := .active, started := some { second := 5, nano := 0 }, now := .epoch },
    { observation := .active, now := { second := 10, nano := 0 } },
    sampleFailure, sampleCompletion, { observation := .active, now := sampleFailure.now }]

/-- The completion that is reported after the failure is ignored. -/
theorem history_tells_sample :
    (beginning? sampleHistory).map Report.start = some { second := 5, nano := 0 } ∧
    ending? sampleHistory = some sampleFailure ∧
    EndsWith (Admission.workUnit default 3 ["a", "b"] .epoch) sampleFailure
      (applyAll (Admission.workUnit default 3 ["a", "b"] .epoch) sampleHistory) ∧
    applyAll (Admission.workUnit default 3 ["a", "b"] .epoch) sampleHistory =
      applyAll (Admission.workUnit default 3 ["a", "b"] .epoch) (sampleHistory.take 4) := by
  obtain ⟨htells, hfrozen, -⟩ := history_tells default 3 ["a", "b"] .epoch sampleHistory
  have hend : ending? sampleHistory = some sampleFailure := by decide
  have hcut : sampleHistory =
    sampleHistory.take 4 ++ sampleCompletion :: sampleHistory.drop 5 := by decide
  exact ⟨by decide, hend, htells.ended _ hend, (hfrozen _ _ _ hcut (by decide)).1⟩

end Lifecycle
end CampaignControl
