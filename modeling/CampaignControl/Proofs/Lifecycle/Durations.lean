import CampaignControl.Lifecycle.Pass
import CampaignControl.Proofs.Lifecycle.Histories

/-!
# Durations

A work unit takes its start from the report of its beginning and its completion from the report of
its end, or from the clock where a report does not tell. Neither looks at the other. So a finish
time may overtake the start (`Lifecycle.Overtaken`): an execution is first seen when it has finished
and tells only when that was, or its start has been taken from the clock before. Unless that
happens the start is not after the completion, and the duration is not negative
(`Lifecycle.start_le_completion_iff`).
-/

namespace CampaignControl

namespace Instant

variable {s t r : Instant}

/-- A leap second comes between the two seconds that it stands between. -/
instance : LE Instant := ⟨fun s t => s.second < t.second ∨ s.second = t.second ∧ s.nano ≤ t.nano⟩

instance (s t : Instant) : Decidable (s ≤ t) :=
  inferInstanceAs (Decidable (s.second < t.second ∨ s.second = t.second ∧ s.nano ≤ t.nano))

theorem le_def : s ≤ t ↔ s.second < t.second ∨ s.second = t.second ∧ s.nano ≤ t.nano := Iff.rfl

theorem le_refl (t : Instant) : t ≤ t := .inr ⟨rfl, Nat.le_refl _⟩

theorem le_trans (h : s ≤ t) (h' : t ≤ r) : s ≤ r := by
  rw [le_def] at *
  omega

/-- From a leap second to the day after, a difference may be negative. From any other instant it is
not. -/
theorem since_nonneg (h : s ≤ t) (hs : s.inLeapSecond = false) :
    0 ≤ (t.since s).nanoseconds := by
  rw [le_def] at h
  simp only [Timestamp.inLeapSecond, decide_eq_false_iff_not] at hs
  simp only [since, Timestamp.inLeapSecond, hs, decide_false, decide_eq_true_eq,
    Bool.false_eq_true, and_false, if_false]
  split <;> omega

end Instant

/-- The times that an execution reports have come, and its start is not after its end. -/
structure Execution.Status.IsTimely (s : Execution.Status) (now : Instant) : Prop where
  started : ∀ start, s.startTime = some start → start ≤ now
  finished : ∀ finish, Execution.finishedAt? s = some finish → finish ≤ now
  ordered : ∀ start finish, s.startTime = some start → Execution.finishedAt? s = some finish →
    start ≤ finish

instance (s : Execution.Status) (now : Instant) : Decidable (s.IsTimely now) :=
  decidable_of_iff ((∀ start ∈ s.startTime, start ≤ now) ∧
      (∀ finish ∈ Execution.finishedAt? s, finish ≤ now) ∧
      ∀ start ∈ s.startTime, ∀ finish ∈ Execution.finishedAt? s, start ≤ finish)
    ⟨fun h => ⟨h.1, h.2.1, fun start finish hs hf => h.2.2 start hs finish hf⟩,
      fun h => ⟨h.started, h.finished, fun start hs finish hf => h.ordered start finish hs hf⟩⟩

theorem Observation.endTime?_ofStatus (s : Execution.Status)
    (h : (Observation.ofStatus s).phase.isTerminal) :
    (Observation.ofStatus s).endTime? = Execution.finishedAt? s := by
  unfold Observation.ofStatus at *
  split at h
  · next hfailed => rw [if_pos hfailed]; rfl
  · next hfailed =>
    rw [if_neg hfailed]
    split at h
    · next hcompleted => rw [if_pos hcompleted]; rfl
    · split at h <;> cases h

namespace Lifecycle

variable {reports : List Report} {passes : List (Execution.Status × Instant)} {b t : Report}
  {correlation : Uid} {unit : WorkUnit} {s c : Instant}

/-- What a pass at this time sees of an execution. -/
def Report.ofStatus (status : Execution.Status) (now : Instant) : Report where
  observation := .ofStatus status
  started := status.startTime
  now

/-- The reports of passes, each of which sees an execution at a time. -/
def reportsOf (passes : List (Execution.Status × Instant)) : List Report :=
  passes.map fun pass => .ofStatus pass.1 pass.2

/-- The finish time that is reported with the end is before the start. -/
inductive Overtaken (reports : List Report) : Prop where
  /-- The end is all that is seen of the execution, and is reported without a start. The start is
  the time of the pass, which the finish is before. -/
  | atOnce {t : Report} {finish : Instant} (begins : beginning? reports = some t)
    (ends : ending? reports = some t) (started : t.started = none)
    (finished : t.observation.endTime? = some finish) (before : ¬ t.now ≤ finish)
  /-- An earlier pass has found the execution active, and a start that the finish is before. -/
  | later {b t : Report} {finish : Instant} (begins : beginning? reports = some b)
    (active : b.observation = .active) (ends : ending? reports = some t)
    (finished : t.observation.endTime? = some finish) (before : ¬ b.start ≤ finish)

theorem Overtaken.before_start (h : Overtaken reports) (hbegins : beginning? reports = some b)
    (hends : ending? reports = some t) :
    ∃ finish, t.observation.endTime? = some finish ∧ ¬ b.start ≤ finish := by
  cases h with
  | atOnce begins ends started finished before =>
    cases hbegins.symm.trans begins
    cases hends.symm.trans ends
    refine ⟨_, finished, ?_⟩
    rwa [Report.start, started]
  | later begins active ends finished before =>
    cases hbegins.symm.trans begins
    cases hends.symm.trans ends
    exact ⟨_, finished, before⟩

/-- The beginning of a history is not after its end. -/
theorem beginning_le_ending (hclock : reports.Pairwise fun r r' => r.now ≤ r'.now)
    (hbegins : beginning? reports = some b) (hends : ending? reports = some t) :
    b.now ≤ t.now := by
  have hend : t.isEnd := List.find?_some hends
  have hmem : t ∈ reports := List.mem_of_find?_eq_some hends
  unfold beginning? at hbegins
  obtain ⟨-, front, back, rfl, hbefore⟩ := List.find?_eq_some_iff_append.1 hbegins
  rcases List.mem_append.1 hmem with hfront | hback
  · have hnot := hbefore t hfront
    rw [Report.isBeginning_of_isEnd hend] at hnot
    cases hnot
  · rcases List.mem_cons.1 hback with rfl | hback
    · exact Instant.le_refl _
    · exact List.rel_of_pairwise_cons (List.pairwise_append.1 hclock).2.1 hback

theorem mem_passes_of_mem_reportsOf {r : Report} (h : r ∈ reportsOf passes) :
    ∃ pass ∈ passes, Report.ofStatus pass.1 pass.2 = r := List.mem_map.1 h

/-- With the end a start is reported that is not after it. -/
theorem ordered_of_timely (htimely : ∀ pass ∈ passes, pass.1.IsTimely pass.2)
    (hmem : t ∈ reportsOf passes) (hend : t.isEnd) {finish : Instant}
    (hstarted : t.started = some s) (hfinished : t.observation.endTime? = some finish) :
    s ≤ finish := by
  obtain ⟨pass, hpass, rfl⟩ := mem_passes_of_mem_reportsOf hmem
  exact (htimely pass hpass).ordered s finish hstarted
    ((Observation.endTime?_ofStatus pass.1 hend).symm.trans hfinished)

theorem start_le_now (htimely : ∀ pass ∈ passes, pass.1.IsTimely pass.2)
    (hmem : b ∈ reportsOf passes) : b.start ≤ b.now := by
  obtain ⟨pass, hpass, rfl⟩ := mem_passes_of_mem_reportsOf hmem
  unfold Report.start
  cases hstarted : (Report.ofStatus pass.1 pass.2).started with
  | none => exact Instant.le_refl _
  | some start => exact (htimely pass hpass).started start hstarted

/-- An execution that has a start whenever it has begun, and always the same one, is not
overtaken. -/
theorem not_overtaken (htimely : ∀ pass ∈ passes, pass.1.IsTimely pass.2)
    (hstart : ∀ r ∈ reportsOf passes, r.isBeginning → r.started = some s) :
    ¬ Overtaken (reportsOf passes) := by
  rintro (⟨begins, -, started, -, -⟩ | ⟨begins, -, ends, finished, before⟩)
  · have hsome := hstart _ (List.mem_of_find?_eq_some begins) (List.find?_some begins)
    rw [started] at hsome
    cases hsome
  · have hend := List.find?_some ends
    have hmem := List.mem_of_find?_eq_some ends
    refine before ?_
    rw [Report.start, hstart _ (List.mem_of_find?_eq_some begins) (List.find?_some begins)]
    exact ordered_of_timely htimely hmem hend
      (hstart _ hmem (Report.isBeginning_of_isEnd hend)) finished

/-- What is recorded of the end is not before what is recorded of the beginning, unless the finish
time overtakes it. -/
theorem start_le_end_iff (hclock : (reportsOf passes).Pairwise fun r r' => r.now ≤ r'.now)
    (htimely : ∀ pass ∈ passes, pass.1.IsTimely pass.2)
    (hbegins : beginning? (reportsOf passes) = some b)
    (hends : ending? (reportsOf passes) = some t) :
    b.start ≤ t.observation.endTime?.getD t.now ↔ ¬ Overtaken (reportsOf passes) := by
  have hb : b ∈ reportsOf passes := List.mem_of_find?_eq_some hbegins
  constructor
  · intro hle hovertaken
    obtain ⟨finish, hfinished, hbefore⟩ := hovertaken.before_start hbegins hends
    rw [hfinished] at hle
    exact hbefore hle
  intro hnot
  cases hfinished : t.observation.endTime? with
  | none =>
    -- the end is the time of a pass, and no pass is before the one that has seen the beginning
    exact Instant.le_trans (start_le_now htimely hb) (beginning_le_ending hclock hbegins hends)
  | some finish =>
    refine Decidable.byContradiction fun hbefore => hnot ?_
    by_cases hend : b.isEnd
    · cases hends.symm.trans (ending?_of_beginning? hbegins hend)
      cases hstarted : b.started with
      | some start =>
        rw [Report.start, hstarted] at hbefore
        exact absurd (ordered_of_timely htimely hb hend hstarted hfinished) hbefore
      | none =>
        rw [Report.start, hstarted] at hbefore
        exact .atOnce hbegins hends hstarted hfinished hbefore
    · exact .later hbegins (Report.active_of_not_isEnd (List.find?_some hbegins) hend) hends
        hfinished hbefore

/-- What is counted of a finished work unit is the time from its start to its completion. -/
theorem announce_of_isTerminal (h : unit.status.phase.isTerminal)
    (hs : unit.status.startTime = some s) (hc : unit.status.completionTime = some c)
    (correlation : Uid) (old : WorkUnit.Phase) :
    announce correlation unit old =
      (do Pass.measure (.completed unit.campaignKey unit.status.phase (some (c.since s)))
          publish correlation unit (.phaseChanged old unit.status.phase)) := by
  simp only [announce, h, hs, hc, if_true]

/-- **Durations are not negative, unless a finish time overtakes the start.** Of a work unit that is
built for a batch, and an execution that reports no time before it has come and no start after its
end, the start is not after the completion if and only if the history is not overtaken. Then the
duration that is counted is not negative, if the start is not in a leap second. An execution that
has a start whenever it has begun, and always the same one, is not overtaken. -/
theorem start_le_completion_iff (campaign : Campaign) (index : Nat) (batch : Batch)
    (built : Instant) (passes : List (Execution.Status × Instant))
    (hclock : (passes.map Prod.snd).Pairwise (· ≤ ·))
    (htimely : ∀ pass ∈ passes, pass.1.IsTimely pass.2) (s c : Instant)
    (hs : (applyAll (Admission.workUnit campaign index batch built)
      (reportsOf passes)).status.startTime = some s)
    (hc : (applyAll (Admission.workUnit campaign index batch built)
      (reportsOf passes)).status.completionTime = some c) :
    let unit := applyAll (Admission.workUnit campaign index batch built) (reportsOf passes)
    (s ≤ c ↔ ¬ Overtaken (reportsOf passes)) ∧
      (∀ start, (∀ r ∈ reportsOf passes, r.isBeginning → r.started = some start) → s ≤ c) ∧
      unit.status.phase.isTerminal ∧
      (∀ correlation old, announce correlation unit old =
        (do Pass.measure (.completed unit.campaignKey unit.status.phase (some (c.since s)))
            publish correlation unit (.phaseChanged old unit.status.phase))) ∧
      (s ≤ c → s.inLeapSecond = false → 0 ≤ (c.since s).nanoseconds) := by
  intro unit
  have htold : ToldBy _ (reportsOf passes) unit :=
    toldBy_of_isNew (isNew_workUnit campaign index batch built) (reportsOf passes)
  have hclock' : (reportsOf passes).Pairwise fun r r' => r.now ≤ r'.now := by
    rw [List.pairwise_map] at hclock
    exact List.pairwise_map.2 hclock
  -- both times are there, so a beginning and an end have been seen
  obtain ⟨b, hbegins, rfl⟩ := Option.map_eq_some_iff.1 (htold.startTime.symm.trans hs)
  cases hends : ending? (reportsOf passes) with
  | none =>
    have hnone := (htold.goesOn hends).completionTime
    cases hnone.symm.trans hc
  | some t =>
    have hended := htold.ended t hends
    cases hended.completionTime.symm.trans hc
    have hend : t.isEnd := List.find?_some hends
    have hterminal : unit.status.phase.isTerminal := by
      rw [hended.phase]
      exact hend
    have hiff := start_le_end_iff hclock' htimely hbegins hends
    exact ⟨hiff, fun start hstart => hiff.2 (not_overtaken htimely hstart), hterminal,
      announce_of_isTerminal hterminal hs hc, Instant.since_nonneg⟩

/-- The second so many seconds after the start of the year 1970. -/
def sampleSecond (n : Fin 60) : Instant where
  second := n
  nano := 0
  inRange := by
    unfold Timestamp.InRange Timestamp.firstSecond Timestamp.lastSecond
    omega
  isClear := .inl (Nat.succ_pos _)

/-- An execution that is seen active in second 5 and finished in second 10. -/
def samplePasses : List (Execution.Status × Instant) :=
  [({ active := 1, startTime := some (sampleSecond 3) }, sampleSecond 5),
    ({ startTime := some (sampleSecond 3), completionTime := some (sampleSecond 8) },
      sampleSecond 10)]

/-- Its work unit has run for five seconds. -/
theorem start_le_completion_iff_sample :
    let unit := applyAll (Admission.workUnit default 3 ["a", "b"] .epoch) (reportsOf samplePasses)
    unit.status.startTime = some (sampleSecond 3) ∧
      unit.status.completionTime = some (sampleSecond 8) ∧ ¬ Overtaken (reportsOf samplePasses) ∧
      0 ≤ ((sampleSecond 8).since (sampleSecond 3)).nanoseconds := by
  intro unit
  have hs : unit.status.startTime = some (sampleSecond 3) := by decide +kernel
  have hc : unit.status.completionTime = some (sampleSecond 8) := by decide +kernel
  obtain ⟨hiff, hle, -, -, hduration⟩ := start_le_completion_iff default 3 ["a", "b"] .epoch
    samplePasses (by decide) (by decide) (sampleSecond 3) (sampleSecond 8) hs hc
  have hle := hle (sampleSecond 3) (by decide)
  exact ⟨hs, hc, hiff.1 hle, hduration hle (by decide)⟩

/-- **A finish time that is told late overtakes the clock.** An execution that has finished in
second 8 and tells no start is first seen in second 10. Its work unit starts two seconds after its
completion. -/
theorem late_finish_overtakes :
    let finished : Execution.Status := { completionTime := some (sampleSecond 8) }
    let unit := applyAll (Admission.workUnit default 3 ["a", "b"] .epoch)
      (reportsOf [(finished, sampleSecond 10)])
    finished.IsTimely (sampleSecond 10) ∧ unit.status.startTime = some (sampleSecond 10) ∧
      unit.status.completionTime = some (sampleSecond 8) ∧
      ¬ sampleSecond 10 ≤ sampleSecond 8 ∧
      ((sampleSecond 8).since (sampleSecond 10)).nanoseconds = -2_000_000_000 :=
  ⟨by decide, by decide +kernel, by decide +kernel, by decide, by decide⟩

end Lifecycle
end CampaignControl
