import CampaignControl.Lifecycle.Observation
import CampaignControl.Proofs.Condition

/-!
# What is observed of an execution

Failure, completion, the message and the finish time are looked for in the conditions of an
execution one after the other. If no two conditions have the same type, what is found is told by
which conditions there are (`Execution.Reports`), and so it does not depend on their order
(`Observation.ofStatus_any_order`).
-/

namespace CampaignControl

namespace Condition

variable {type : String} {conditions conditions' : List Condition} {c : Condition}

/-- Of distinct types there is one condition to be found. -/
theorem Distinct.find?_eq_some_iff (h : Distinct conditions) :
    find? type conditions = some c ↔ c ∈ conditions ∧ c.type = type := by
  unfold find?
  induction conditions with
  | nil => simp
  | cons head rest ih =>
    obtain ⟨hnot, hrest⟩ := List.nodup_cons.1 h
    by_cases hhead : head.type = type
    · rw [List.find?_cons_of_pos (by simpa using hhead), Option.some_inj]
      constructor
      · rintro rfl
        exact ⟨List.mem_cons_self, hhead⟩
      · rintro ⟨hmem, htype⟩
        rcases List.mem_cons.1 hmem with rfl | hmem
        · rfl
        · exact absurd (List.mem_map.2 ⟨c, hmem, htype.trans hhead.symm⟩) hnot
    · rw [List.find?_cons_of_neg (by simpa using hhead), ih hrest, List.mem_cons]
      constructor
      · exact fun ⟨hmem, htype⟩ => ⟨.inr hmem, htype⟩
      · rintro ⟨rfl | hmem, htype⟩
        · exact absurd htype hhead
        · exact ⟨hmem, htype⟩

theorem Distinct.of_perm (h : Distinct conditions) (hperm : conditions'.Perm conditions) :
    Distinct conditions' :=
  (hperm.map Condition.type).nodup_iff.2 h

theorem holds_perm (hperm : conditions'.Perm conditions) :
    Holds type conditions' ↔ Holds type conditions :=
  ⟨fun ⟨c, hmem, h⟩ => ⟨c, hperm.mem_iff.1 hmem, h⟩,
    fun ⟨c, hmem, h⟩ => ⟨c, hperm.mem_iff.2 hmem, h⟩⟩

end Condition

namespace Execution

open Condition (Distinct Holds)

variable {s : Status} {type : String} {c : Condition} {o : Observation}

theorem holding?_eq_some_iff (h : Distinct s.conditions) :
    holding? type s = some c ↔ c ∈ s.conditions ∧ c.type = type ∧ c.status = .holds := by
  rw [holding?, Option.filter_eq_some_iff, h.find?_eq_some_iff, and_assoc]
  simp [Condition.holds]

theorem holding?_eq_none_iff (h : Distinct s.conditions) :
    holding? type s = none ↔ ¬ Holds type s.conditions := by
  rw [Option.eq_none_iff_forall_ne_some, Holds, not_exists]
  exact forall_congr' fun c => not_congr (holding?_eq_some_iff h)

/-! ## What is found decides -/

theorem ofStatus_of_failure (h : holding? failure s = some c) :
    Observation.ofStatus s = .failed (some (if c.message.isEmpty then c.reason else c.message))
      (some (s.completionTime.getD c.since)) := by
  have hfailed : hasFailed s = true := by rw [hasFailed, h, Option.isSome_some]
  have htime : finishedAt? s = some (s.completionTime.getD c.since) := by
    rw [finishedAt?, h]
    cases s.completionTime <;> rfl
  rw [Observation.ofStatus, if_pos hfailed, htime, failureMessage?, h, Option.map_some]

theorem ofStatus_of_complete (hfailure : holding? failure s = none)
    (h : holding? complete s = some c) :
    Observation.ofStatus s = .completed (some (s.completionTime.getD c.since)) := by
  have hfailed : ¬ hasFailed s = true := by simp [hasFailed, hfailure]
  have hcompleted : hasCompleted s = true := by simp [hasCompleted, h]
  have htime : finishedAt? s = some (s.completionTime.getD c.since) := by
    rw [finishedAt?, hfailure, h]
    cases s.completionTime <;> rfl
  rw [Observation.ofStatus, if_neg hfailed, if_pos hcompleted, htime]

theorem ofStatus_of_none (hfailure : holding? failure s = none)
    (hcomplete : holding? complete s = none) :
    Observation.ofStatus s = match s.completionTime with
      | some time => .completed (some time)
      | none => if 0 < s.active then .active else .pending := by
  have hfailed : ¬ hasFailed s = true := by simp [hasFailed, hfailure]
  rw [Observation.ofStatus, if_neg hfailed, hasCompleted, hcomplete, finishedAt?, hfailure,
    hcomplete]
  cases s.completionTime <;> simp [isActive]

/-! ## Reports -/

/-- What the status of an execution reports, whatever the order of its conditions. -/
inductive Reports (s : Status) : Observation → Prop
  /-- A failure that holds comes before everything else. It is explained by its message, or by its
  reason where there is none. -/
  | failed (c : Condition) : c ∈ s.conditions → c.type = failure → c.status = .holds →
      Reports s (.failed (some (if c.message.isEmpty then c.reason else c.message))
        (some (s.completionTime.getD c.since)))
  | completed (c : Condition) : ¬ Holds failure s.conditions →
      c ∈ s.conditions → c.type = complete → c.status = .holds →
      Reports s (.completed (some (s.completionTime.getD c.since)))
  /-- A completion time is as good as a condition. -/
  | finished (time : Instant) : ¬ Holds failure s.conditions → ¬ Holds complete s.conditions →
      s.completionTime = some time → Reports s (.completed (some time))
  | active : ¬ Holds failure s.conditions → ¬ Holds complete s.conditions →
      s.completionTime = none → 0 < s.active → Reports s .active
  | pending : ¬ Holds failure s.conditions → ¬ Holds complete s.conditions →
      s.completionTime = none → ¬ 0 < s.active → Reports s .pending

theorem reports_ofStatus (h : Distinct s.conditions) : Reports s (Observation.ofStatus s) := by
  cases hfailure : holding? failure s with
  | some c =>
    obtain ⟨hmem, htype, hstatus⟩ := (holding?_eq_some_iff h).1 hfailure
    rw [ofStatus_of_failure hfailure]
    exact .failed c hmem htype hstatus
  | none =>
    have hsound := (holding?_eq_none_iff h).1 hfailure
    cases hcomplete : holding? complete s with
    | some c =>
      obtain ⟨hmem, htype, hstatus⟩ := (holding?_eq_some_iff h).1 hcomplete
      rw [ofStatus_of_complete hfailure hcomplete]
      exact .completed c hsound hmem htype hstatus
    | none =>
      have hopen := (holding?_eq_none_iff h).1 hcomplete
      rw [ofStatus_of_none hfailure hcomplete]
      cases htime : s.completionTime with
      | some time => exact .finished time hsound hopen htime
      | none =>
        show Reports s (if 0 < s.active then .active else .pending)
        split
        · next hactive => exact .active hsound hopen htime hactive
        · next hidle => exact .pending hsound hopen htime hidle

theorem Reports.eq (h : Distinct s.conditions) (ho : Reports s o) : Observation.ofStatus s = o := by
  cases ho with
  | failed c hmem htype hstatus =>
    exact ofStatus_of_failure ((holding?_eq_some_iff h).2 ⟨hmem, htype, hstatus⟩)
  | completed c hsound hmem htype hstatus =>
    exact ofStatus_of_complete ((holding?_eq_none_iff h).2 hsound)
      ((holding?_eq_some_iff h).2 ⟨hmem, htype, hstatus⟩)
  | finished time hsound hopen htime =>
    rw [ofStatus_of_none ((holding?_eq_none_iff h).2 hsound) ((holding?_eq_none_iff h).2 hopen),
      htime]
  | active hsound hopen htime hactive =>
    rw [ofStatus_of_none ((holding?_eq_none_iff h).2 hsound) ((holding?_eq_none_iff h).2 hopen),
      htime]
    exact if_pos hactive
  | pending hsound hopen htime hidle =>
    rw [ofStatus_of_none ((holding?_eq_none_iff h).2 hsound) ((holding?_eq_none_iff h).2 hopen),
      htime]
    exact if_neg hidle

theorem ofStatus_eq_iff (h : Distinct s.conditions) :
    Observation.ofStatus s = o ↔ Reports s o :=
  ⟨fun heq => heq ▸ reports_ofStatus h, Reports.eq h⟩

/-- The conditions of a status may be put into any order. -/
theorem Reports.of_perm {conditions : List Condition} (hperm : conditions.Perm s.conditions)
    (ho : Reports s o) : Reports { s with conditions } o := by
  have hnot : ∀ {type}, ¬ Holds type s.conditions → ¬ Holds type conditions :=
    fun h => (Condition.holds_perm hperm).not.2 h
  cases ho with
  | failed c hmem htype hstatus => exact .failed c (hperm.mem_iff.2 hmem) htype hstatus
  | completed c hsound hmem htype hstatus =>
    exact .completed c (hnot hsound) (hperm.mem_iff.2 hmem) htype hstatus
  | finished time hsound hopen htime => exact .finished time (hnot hsound) (hnot hopen) htime
  | active hsound hopen htime hactive => exact .active (hnot hsound) (hnot hopen) htime hactive
  | pending hsound hopen htime hidle => exact .pending (hnot hsound) (hnot hopen) htime hidle

theorem exists_reports_failed :
    (∃ message time, Reports s (.failed message time)) ↔ Holds failure s.conditions := by
  constructor
  · rintro ⟨message, time, ho⟩
    cases ho with
    | failed c hmem htype hstatus => exact ⟨c, hmem, htype, hstatus⟩
  · rintro ⟨c, hmem, htype, hstatus⟩
    exact ⟨_, _, .failed c hmem htype hstatus⟩

theorem exists_reports_completed : (∃ time, Reports s (.completed time)) ↔
    ¬ Holds failure s.conditions ∧ (Holds complete s.conditions ∨ s.completionTime.isSome) := by
  constructor
  · rintro ⟨time, ho⟩
    cases ho with
    | completed c hsound hmem htype hstatus => exact ⟨hsound, .inl ⟨c, hmem, htype, hstatus⟩⟩
    | finished time hsound _ htime => exact ⟨hsound, .inr (by rw [htime, Option.isSome_some])⟩
  · rintro ⟨hsound, hends⟩
    by_cases hcomplete : Holds complete s.conditions
    · obtain ⟨c, hmem, htype, hstatus⟩ := hcomplete
      exact ⟨_, .completed c hsound hmem htype hstatus⟩
    · obtain ⟨time, htime⟩ := Option.isSome_iff_exists.1 (hends.resolve_left hcomplete)
      exact ⟨_, .finished time hsound hcomplete htime⟩

theorem reports_active_iff : Reports s .active ↔
    ¬ Holds failure s.conditions ∧ ¬ (Holds complete s.conditions ∨ s.completionTime.isSome) ∧
      0 < s.active := by
  rw [not_or, Option.not_isSome_iff_eq_none]
  constructor
  · intro ho
    cases ho with
    | active hsound hopen htime hactive => exact ⟨hsound, ⟨hopen, htime⟩, hactive⟩
  · rintro ⟨hsound, ⟨hopen, htime⟩, hactive⟩
    exact .active hsound hopen htime hactive

theorem Reports.time_of_failed {message : Option String} {time : Option Instant}
    (ho : Reports s (.failed message time)) : time.isSome := by
  cases ho
  rfl

theorem Reports.time_of_completed {time : Option Instant} (ho : Reports s (.completed time)) :
    time.isSome := by
  cases ho <;> rfl

end Execution

namespace Observation

open Condition (Distinct Holds)
open Execution (Reports)

/-- **What is observed does not depend on the order of the conditions.** Setting a condition keeps
the types of conditions distinct. If they are, an execution is observed in the same way, with the
same message and the same finish time, in whatever order they are: as failed exactly when a failure
holds, else as completed exactly when completion holds or a completion time is reported, else as
active exactly when a worker is. An end that is observed has a finish time. -/
theorem ofStatus_any_order {s : Execution.Status} (h : Distinct s.conditions) :
    (∀ conditions, conditions.Perm s.conditions → ofStatus { s with conditions } = ofStatus s) ∧
      (∀ o, ofStatus s = o ↔ Reports s o) ∧
      ((∃ message time, ofStatus s = .failed message time) ↔
        Holds Execution.failure s.conditions) ∧
      ((∃ time, ofStatus s = .completed time) ↔
        ¬ Holds Execution.failure s.conditions ∧
          (Holds Execution.complete s.conditions ∨ s.completionTime.isSome)) ∧
      (ofStatus s = .active ↔
        ¬ Holds Execution.failure s.conditions ∧
          ¬ (Holds Execution.complete s.conditions ∨ s.completionTime.isSome) ∧ 0 < s.active) ∧
      ((∀ message time, ofStatus s = .failed message time → time.isSome) ∧
        ∀ time, ofStatus s = .completed time → time.isSome) ∧
      ∀ new : Condition, Distinct (new.set s.conditions) := by
  have hreports : ∀ o, ofStatus s = o ↔ Reports s o := fun _ => Execution.ofStatus_eq_iff h
  refine ⟨fun conditions hperm => ?_, hreports, ?_, ?_, ?_, ⟨fun message time heq => ?_,
    fun time heq => ?_⟩, h.set⟩
  · exact ((Execution.reports_ofStatus h).of_perm hperm).eq (h.of_perm hperm)
  · simp only [hreports]
    exact Execution.exists_reports_failed
  · simp only [hreports]
    exact Execution.exists_reports_completed
  · rw [hreports]
    exact Execution.reports_active_iff
  · exact ((hreports _).1 heq).time_of_failed
  · exact ((hreports _).1 heq).time_of_completed

/-- A failure without a message among conditions that say nothing of the end, turned round. -/
theorem ofStatus_any_order_sample :
    let waits : Condition := { type := "Suspended", status := .unknown, since := .epoch }
    let works : Condition := { type := Execution.complete, status := .fails, since := .epoch }
    let fails : Condition :=
      { type := Execution.failure, status := .holds, reason := "BackoffLimitExceeded"
        since := .epoch }
    let s : Execution.Status := { active := 1, conditions := [waits, works, fails] }
    Distinct s.conditions ∧ [fails, works, waits].Perm s.conditions ∧
      ofStatus { s with conditions := [fails, works, waits] } = ofStatus s ∧
      ofStatus s = .failed (some "BackoffLimitExceeded") (some .epoch) ∧
      Distinct ((Condition.set { waits with status := .fails }) s.conditions) := by
  intro waits works fails s
  have hdistinct : Distinct s.conditions := by decide
  have hperm : [fails, works, waits].Perm s.conditions := by decide
  obtain ⟨horder, hreports, -, -, -, -, hset⟩ := ofStatus_any_order hdistinct
  have hfailed : Reports s (.failed (some "BackoffLimitExceeded") (some .epoch)) :=
    .failed fails (by decide) rfl rfl
  exact ⟨hdistinct, hperm, horder _ hperm, (hreports _).2 hfailed, hset _⟩

end Observation
end CampaignControl
