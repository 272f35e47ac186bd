import CampaignControl.Policy.Retention
import CampaignControl.Policy.Requeue
import CampaignControl.Proofs.Time.Reading

/-!
# The arithmetic of retention

A window that is too long for a span is cut, and for a deadline that is too late for an instant
there is the longest span. Neither can be told from unbounded arithmetic (`WorkUnit.Due`), since
both are later than every instant. The delay that is asked for leads to the end of the retention or
to a time before it (`WorkUnit.Wakes`).

Leap seconds are the exception. The deadline is found by an addition that leaves them out, and what
is left by a subtraction that may count them. So a record may be kept too long when it is looked at
in a leap second, and not long enough when it is completed in one (`WorkUnit.leap_second_breaks`).
-/

namespace CampaignControl

namespace RetentionPolicy

variable (p : RetentionPolicy) (own : Option Int64)

/-- No time of the policy is negative. -/
def IsForward : Prop := 0 ≤ p.defaultWindow.toInt ∧ 0 ≤ p.safetyBuffer.toInt

instance : Decidable p.IsForward := inferInstanceAs (Decidable (_ ∧ _))

/-- The seconds for which a record is to be kept, without any bounds. -/
def seconds : Int :=
  match own with
  | some seconds => max seconds.toInt 0 + p.safetyBuffer.toInt
  | none => p.defaultWindow.toInt

theorem saturated_le_longest (n : Int) :
    (saturated n).nanoseconds.natAbs ≤ Span.longest.nanoseconds := by
  unfold saturated
  split
  · simp only [Span.ofSeconds, Span.longest, mostSeconds] at *
    omega
  · decide

/-- Every window is a span that there is. -/
theorem window_le_longest : (p.window own).nanoseconds.natAbs ≤ Span.longest.nanoseconds := by
  unfold window
  split <;> exact saturated_le_longest _

variable {p}

theorem saturated_cases {n : Int} (h : 0 ≤ n) :
    (saturated n).nanoseconds = n * 1_000_000_000 ∨ saturated n = .longest ∧ mostSeconds < n := by
  unfold saturated mostSeconds
  split
  · exact .inl rfl
  · next hlong => exact .inr ⟨rfl, by omega⟩

/-- A window is as long as it is to be, or both are longer than there is time. -/
theorem window_cases (hp : p.IsForward) (own : Option Int64) : 0 ≤ p.seconds own ∧
    ((p.window own).nanoseconds = p.seconds own * 1_000_000_000 ∨
      p.window own = .longest ∧ mostSeconds < p.seconds own) := by
  obtain ⟨hdefault, hbuffer⟩ := hp
  unfold window seconds
  cases own with
  | none => exact ⟨hdefault, saturated_cases hdefault⟩
  | some own =>
    dsimp only
    have hpos : 0 ≤ max own.toInt 0 + p.safetyBuffer.toInt := by omega
    refine ⟨hpos, ?_⟩
    -- what is cut to an integer of 64 bits is too long for a span in any case
    by_cases hcut : max own.toInt 0 + p.safetyBuffer.toInt ≤ 0x7fffffffffffffff
    · rw [Int.min_eq_left hcut]
      exact saturated_cases hpos
    · rw [Int.min_eq_right (by omega)]
      exact .inr ⟨rfl, by unfold mostSeconds; omega⟩

/-- The deadline of what has been completed outside a leap second: it is as late as it is to be, or
later than every instant. -/
theorem deadline_cases (hp : p.IsForward) (own : Option Int64) {c : Instant}
    (hc : c.inLeapSecond = false) :
    (∃ deadline, c.add? (p.window own) = some deadline ∧ deadline.inLeapSecond = false ∧
      deadline.reading = c.reading + p.seconds own * 1_000_000_000) ∨
    (c.add? (p.window own) = none ∧
      Instant.endReading ≤ c.reading + p.seconds own * 1_000_000_000) := by
  obtain ⟨hpos, hwindow⟩ := window_cases hp own
  have hfirst := c.firstReading_le
  cases hadd : c.add? (p.window own) with
  | some deadline =>
    obtain ⟨hreading, hdeadline⟩ := Instant.reading_of_add? hc hadd
    refine .inl ⟨deadline, rfl, hdeadline, ?_⟩
    rcases hwindow with hexact | ⟨hlongest, -⟩
    · rw [hreading, hexact]
    · have hlt := Instant.reading_lt hdeadline
      rw [hreading, hlongest] at hlt
      simp only [Span.longest, Instant.endReading, Instant.firstReading, Timestamp.firstSecond,
        Timestamp.lastSecond] at hlt hfirst
      omega
  | none =>
    refine .inr ⟨rfl, ?_⟩
    rcases hwindow with hexact | ⟨-, hlong⟩
    · rcases (Instant.add?_eq_none_iff hc).1 hadd with hearly | hlate
      · omega
      · rwa [hexact] at hlate
    · simp only [mostSeconds, Instant.endReading, Instant.firstReading, Timestamp.firstSecond,
        Timestamp.lastSecond] at hlong hfirst ⊢
      omega

end RetentionPolicy

namespace WorkUnit

/-- A record is finished, and the seconds for which it is to be kept have passed since its
completion. -/
def Due (u : WorkUnit) (policy : RetentionPolicy) (now : Instant) : Prop :=
  u.status.phase.isTerminal ∧ ∃ c, u.status.completionTime = some c ∧
    policy.seconds u.spec.retentionSeconds * 1_000_000_000 ≤ now.reading - c.reading

variable {u : WorkUnit} {policy : RetentionPolicy} {now c t : Instant} {left : Span}

theorem retentionLeft?_of_completed (h : u.status.phase.isTerminal)
    (hcompleted : u.status.completionTime = some c) (policy : RetentionPolicy) (now : Instant) :
    u.retentionLeft? policy now = some
      (match c.add? (policy.window u.spec.retentionSeconds) with
      | some deadline => deadline.since now
      | none => .longest) := by
  rw [retentionLeft?, if_pos h, hcompleted]
  rfl

/-- What would be kept beyond the last instant is kept at every instant. -/
theorem not_isExpired_of_add?_eq_none (h : u.status.phase.isTerminal)
    (hcompleted : u.status.completionTime = some c)
    (hadd : c.add? (policy.window u.spec.retentionSeconds) = none) (t : Instant) :
    u.isExpired policy t = false := by
  have hleft : u.retentionLeft? policy t = some .longest := by
    rw [retentionLeft?_of_completed h hcompleted, hadd]
  rw [isExpired, hleft]
  rfl

theorem isExpired_eq (h : u.retentionLeft? policy now = some left) :
    u.isExpired policy now = decide (left.nanoseconds ≤ 0) := by
  rw [isExpired, h]

/-- What is left is a span that there is. -/
theorem left_le_longest (h : u.retentionLeft? policy now = some left) :
    left.nanoseconds.natAbs ≤ Span.longest.nanoseconds := by
  unfold retentionLeft? at h
  split at h
  · obtain ⟨c, -, rfl⟩ := Option.map_eq_some_iff.1 h
    split
    · exact Instant.since_le_longest ..
    · decide
  · cases h

section
variable (hp : policy.IsForward) (hterminal : u.status.phase.isTerminal)
  (hcompleted : u.status.completionTime = some c) (hc : c.inLeapSecond = false)
include hp hterminal hcompleted hc

/-- No record goes before its time, not even in a leap second. -/
theorem not_isExpired_of_lt
    (hlt : t.reading < c.reading + policy.seconds u.spec.retentionSeconds * 1_000_000_000) :
    u.isExpired policy t = false := by
  rcases RetentionPolicy.deadline_cases hp u.spec.retentionSeconds hc with
    ⟨deadline, hadd, hdeadline, hreading⟩ | ⟨hadd, -⟩
  · have hsince := Instant.le_since hdeadline t
    rw [isExpired_eq (retentionLeft?_of_completed hterminal hcompleted policy t), hadd,
      decide_eq_false_iff_not]
    dsimp only
    omega
  · exact not_isExpired_of_add?_eq_none hterminal hcompleted hadd t

/-- The retention has ended exactly when the seconds have passed. -/
theorem isExpired_iff_of_completed (hnow : now.inLeapSecond = false) :
    u.isExpired policy now ↔
      policy.seconds u.spec.retentionSeconds * 1_000_000_000 ≤ now.reading - c.reading := by
  rw [isExpired_eq (retentionLeft?_of_completed hterminal hcompleted policy now),
    decide_eq_true_iff]
  rcases RetentionPolicy.deadline_cases hp u.spec.retentionSeconds hc with
    ⟨deadline, hadd, hdeadline, hreading⟩ | ⟨hadd, hlate⟩
  · rw [hadd]
    dsimp only
    rw [Instant.since_eq hnow hdeadline]
    omega
  · have hlt := Instant.reading_lt hnow
    rw [hadd]
    dsimp only [Span.longest]
    omega

end

/-- Only a record that is due is expired, also in a leap second. -/
theorem due_of_isExpired (hp : policy.IsForward)
    (hc : ∀ c, u.status.completionTime = some c → c.inLeapSecond = false)
    (h : u.isExpired policy now) : Due u policy now := by
  by_cases hterminal : u.status.phase.isTerminal
  · cases hcompleted : u.status.completionTime with
    | none =>
      have hnone : u.retentionLeft? policy now = none := by
        rw [retentionLeft?, if_pos hterminal, hcompleted]
        rfl
      rw [isExpired, hnone] at h
      cases h
    | some c =>
      refine ⟨hterminal, c, hcompleted, Int.not_lt.1 fun hlt => ?_⟩
      rw [not_isExpired_of_lt hp hterminal hcompleted (hc c hcompleted) (by omega)] at h
      cases h
  · rw [isExpired, retentionLeft?, if_neg hterminal] at h
    cases h

/-! ## Waking up -/

/-- A delay of so many nanoseconds until the next pass neither misses the end of the retention nor
exceeds the longest wait. -/
structure Wakes (u : WorkUnit) (policy : RetentionPolicy) (requeue : RequeuePolicy) (now : Instant)
    (delay : Nat) : Prop where
  le_most : delay ≤ requeue.maxTerminalWait * 1_000_000_000
  kept : ∀ t : Instant, t.reading < now.reading + delay → u.isExpired policy t = false
  expired : delay < requeue.maxTerminalWait * 1_000_000_000 →
    ∀ t, now.add? ⟨delay⟩ = some t → u.isExpired policy t

theorem exists_wakes (hp : policy.IsForward) (hnow : now.inLeapSecond = false)
    (hterminal : u.status.phase.isTerminal) (hcompleted : u.status.completionTime = some c)
    (hc : c.inLeapSecond = false) (hkept : u.isExpired policy now = false)
    (requeue : RequeuePolicy) :
    ∃ left delay, u.retentionLeft? policy now = some left ∧
      requeue.untilExpiry left = .requeue delay ∧ Wakes u policy requeue now delay := by
  have hbefore := mt (isExpired_iff_of_completed hp hterminal hcompleted hc hnow).2
    (Bool.eq_false_iff.1 hkept)
  rcases RetentionPolicy.deadline_cases hp u.spec.retentionSeconds hc with
    ⟨deadline, hadd, hdeadline, hreading⟩ | ⟨hadd, -⟩
  · have hleft : u.retentionLeft? policy now = some (deadline.since now) := by
      rw [retentionLeft?_of_completed hterminal hcompleted, hadd]
    have hsince := Instant.since_eq hnow hdeadline
    refine ⟨_, _, hleft, rfl, Nat.min_le_right .., fun t ht => ?_, fun hlt t ht => ?_⟩
    · refine not_isExpired_of_lt hp hterminal hcompleted hc ?_
      omega
    · obtain ⟨hthen, ht⟩ := Instant.reading_of_add? hnow ht
      rw [isExpired_iff_of_completed hp hterminal hcompleted hc ht]
      dsimp only at hthen
      omega
  · have hleft : u.retentionLeft? policy now = some .longest := by
      rw [retentionLeft?_of_completed hterminal hcompleted, hadd]
    refine ⟨_, _, hleft, rfl, Nat.min_le_right ..,
      fun t _ => not_isExpired_of_add?_eq_none hterminal hcompleted hadd t, fun hlt t ht => ?_⟩
    -- the longest span leads beyond the last instant
    obtain ⟨hthen, ht⟩ := Instant.reading_of_add? hnow ht
    have hfirst := now.firstReading_le
    have hend := Instant.reading_lt ht
    simp only [Span.longest, Instant.endReading, Instant.firstReading, Timestamp.firstSecond,
      Timestamp.lastSecond] at hlt hthen hfirst hend
    omega

/-- **Retention is exact outside leap seconds.** Of what is not completed in a leap second, only
records that are due are expired, and all of them outside leap seconds. Every span on the way is one
that there is. The delay until the next pass over a record that is not expired does not miss the end
of the retention (`Wakes`). -/
theorem retention_exact (u : WorkUnit) (policy : RetentionPolicy) (requeue : RequeuePolicy)
    (now : Instant) (hp : policy.IsForward)
    (hc : ∀ c, u.status.completionTime = some c → c.inLeapSecond = false) :
    (u.isExpired policy now → Due u policy now) ∧
    ((policy.window u.spec.retentionSeconds).nanoseconds.natAbs ≤ Span.longest.nanoseconds ∧
      ∀ left, u.retentionLeft? policy now = some left →
        left.nanoseconds.natAbs ≤ Span.longest.nanoseconds) ∧
    (now.inLeapSecond = false →
      (Due u policy now → u.isExpired policy now) ∧
      (u.status.phase.isTerminal → u.status.completionTime.isSome →
        u.isExpired policy now = false →
        ∃ left delay, u.retentionLeft? policy now = some left ∧
          requeue.untilExpiry left = .requeue delay ∧ Wakes u policy requeue now delay)) := by
  refine ⟨due_of_isExpired hp hc, ⟨policy.window_le_longest _, fun left => left_le_longest⟩,
    fun hnow => ⟨?_, fun hterminal hsome hkept => ?_⟩⟩
  · rintro ⟨hterminal, c, hcompleted, hpassed⟩
    exact (isExpired_iff_of_completed hp hterminal hcompleted (hc c hcompleted) hnow).2 hpassed
  · obtain ⟨c, hcompleted⟩ := Option.isSome_iff_exists.1 hsome
    exact exists_wakes hp hnow hterminal hcompleted (hc c hcompleted) hkept requeue

/-- A record that has been completed at an instant. -/
def sampleFinished (completed : Instant) : WorkUnit where
  metadata := default
  spec := default
  status := { phase := .succeeded, completionTime := some completed }

def sampleMinute : RetentionPolicy := { defaultWindow := 60, safetyBuffer := 0 }

/-- The delay of a record that is not expired leads to the end of its minute. -/
theorem retention_exact_sample : sampleMinute.IsForward ∧
    Wakes (sampleFinished .epoch) sampleMinute {} { second := 20, nano := 0 } 40_000_000_000 := by
  have hp : sampleMinute.IsForward := by decide
  obtain ⟨-, -, hexact⟩ := retention_exact (sampleFinished .epoch) sampleMinute {}
    { second := 20, nano := 0 } hp fun c hc => by
      cases hc
      rfl
  obtain ⟨left, delay, hleft, hrequeue, hdelay⟩ := (hexact rfl).2 rfl rfl (by decide)
  have hleft' : (sampleFinished .epoch).retentionLeft? sampleMinute { second := 20, nano := 0 } =
    some ⟨40_000_000_000⟩ := by decide
  cases hleft.symm.trans hleft'
  cases hrequeue
  exact ⟨hp, hdelay⟩

/-- Half a second past 2016-12-31T11:59:00. -/
def sampleNoon : Instant := { second := 1483185540, nano := 500_000_000 }

/-- In the leap second after 2016-12-31T11:59:59. -/
def sampleLeap : Instant := { second := 1483185599, nano := 1_700_000_000 }

/-- The middle of the leap second at the end of June 2015. -/
def sampleMidyear : Instant := { second := 1435708799, nano := 1_500_000_000 }

/-- **A leap second breaks it.** A record that is to be kept for a minute is still kept when 60.2
seconds have passed: its deadline is found without the leap second, which then counts in what is
left. A record that is completed in a leap second is expired a second before its two hours have
passed. -/
theorem leap_second_breaks :
    (Due (sampleFinished sampleNoon) sampleMinute sampleLeap ∧
      (sampleLeap.since sampleNoon).nanoseconds = 60_200_000_000 ∧
      (sampleFinished sampleNoon).isExpired sampleMinute sampleLeap = false) ∧
    (sampleFinished sampleMidyear).isExpired {} { second := 1435715999, nano := 500_000_000 } ∧
    ¬ Due (sampleFinished sampleMidyear) {} { second := 1435715999, nano := 500_000_000 } := by
  refine ⟨⟨⟨rfl, sampleNoon, rfl, by decide⟩, by decide, by decide⟩, by decide, ?_⟩
  rintro ⟨-, c, hc, hpassed⟩
  cases hc
  revert hpassed
  decide

end WorkUnit
end CampaignControl
