import CampaignControl.Time.Instant

/-!
# Instants on a line

An instant is read as a number of nanoseconds (`Instant.reading`), in which a leap second is not
told from the second after it. Between instants outside leap seconds, adding a span and taking the
difference are addition and subtraction of these numbers, and an addition fails exactly if it leaves
the years that instants can have.
-/

namespace CampaignControl

namespace Span

theorem seconds_mul_add_subsecond (s : Span) :
    s.seconds * 1_000_000_000 + s.subsecond = s.nanoseconds := Int.tdiv_mul_add_tmod ..

end Span

namespace Instant

variable {t d now : Instant} {s : Span} {second nano : Int}

/-- The nanoseconds since the start of the year 1970. -/
def reading (t : Instant) : Int := t.second * 1_000_000_000 + t.nano

/-- The reading of the first instant. -/
def firstReading : Int := Timestamp.firstSecond * 1_000_000_000

/-- The reading after the last instant that is not in a leap second. -/
def endReading : Int := (Timestamp.lastSecond + 1) * 1_000_000_000

theorem nano_lt_of_not_inLeapSecond (h : t.inLeapSecond = false) : t.nano < 1_000_000_000 := by
  simpa [Timestamp.inLeapSecond] using h

theorem firstReading_le (t : Instant) : firstReading ≤ t.reading := by
  have := t.first_le
  unfold reading firstReading
  omega

theorem reading_lt (h : t.inLeapSecond = false) : t.reading < endReading := by
  have := t.le_last
  have := nano_lt_of_not_inLeapSecond h
  unfold reading endReading
  omega

/-! ## Adding -/

theorem eq_of_at? {nano : Nat} (h : at? second nano = some t) :
    t.second = second ∧ t.nano = nano := by
  unfold at? at h
  split at h
  · cases h
    exact ⟨rfl, rfl⟩
  · cases h

theorem reading_of_normalize? (h : normalize? second nano = some t) :
    t.reading = second * 1_000_000_000 + nano ∧ t.inLeapSecond = false := by
  obtain ⟨hsecond, hnano⟩ := eq_of_at? h
  have hpos : 0 ≤ nano % 1_000_000_000 := Int.emod_nonneg _ (by decide)
  have hlt : nano % 1_000_000_000 < 1_000_000_000 := Int.emod_lt_of_pos _ (by decide)
  have hsplit := Int.mul_ediv_add_emod nano 1_000_000_000
  refine ⟨?_, ?_⟩
  · unfold reading
    omega
  · unfold Timestamp.inLeapSecond
    rw [decide_eq_false_iff_not]
    omega

theorem normalize?_eq_none_iff : normalize? second nano = none ↔
    second * 1_000_000_000 + nano < firstReading ∨
      endReading ≤ second * 1_000_000_000 + nano := by
  have hlt : nano % 1_000_000_000 < 1_000_000_000 := Int.emod_lt_of_pos _ (by decide)
  have hpos : 0 ≤ nano % 1_000_000_000 := Int.emod_nonneg _ (by decide)
  have hsplit := Int.mul_ediv_add_emod nano 1_000_000_000
  have hfits : Fits (second + nano / 1_000_000_000) (nano % 1_000_000_000).toNat :=
    .inl (by omega)
  unfold normalize? at? firstReading endReading
  rw [dite_eq_right_iff]
  constructor
  · intro h
    refine Decidable.byContradiction fun hrange => ?_
    have hsome := h ⟨⟨by omega, by omega, by omega⟩, hfits⟩
    cases hsome
  · rintro hrange ⟨⟨hfirst, hlast, -⟩, -⟩
    omega

theorem add?_of_not_inLeapSecond (h : t.inLeapSecond = false) (s : Span) :
    t.add? s = normalize? (t.second + s.seconds) (t.nano + s.subsecond) := by
  unfold add?
  rw [h]
  rfl

/-- Adding is addition of readings. -/
theorem reading_of_add? (h : t.inLeapSecond = false) (hadd : t.add? s = some d) :
    d.reading = t.reading + s.nanoseconds ∧ d.inLeapSecond = false := by
  rw [add?_of_not_inLeapSecond h] at hadd
  obtain ⟨hreading, hd⟩ := reading_of_normalize? hadd
  have hsplit := s.seconds_mul_add_subsecond
  refine ⟨?_, hd⟩
  rw [hreading]
  unfold reading
  omega

theorem add?_eq_none_iff (h : t.inLeapSecond = false) : t.add? s = none ↔
    t.reading + s.nanoseconds < firstReading ∨ endReading ≤ t.reading + s.nanoseconds := by
  have hsplit := s.seconds_mul_add_subsecond
  rw [add?_of_not_inLeapSecond h, normalize?_eq_none_iff]
  unfold reading
  omega

/-! ## Taking differences -/

/-- The difference is that of the readings. -/
theorem since_eq (ht : t.inLeapSecond = false) (hd : d.inLeapSecond = false) :
    (d.since t).nanoseconds = d.reading - t.reading := by
  simp only [since, ht, hd, reading, Bool.false_eq_true, and_false, if_false]
  omega

/-- A leap second at the beginning may count, and one at the end does not. -/
theorem le_since (hd : d.inLeapSecond = false) (t : Instant) :
    d.reading - t.reading ≤ (d.since t).nanoseconds := by
  simp only [since, hd, reading, Bool.false_eq_true, and_false, if_false]
  split <;> omega

/-- A difference is a span that there is. -/
theorem since_le_longest (d t : Instant) :
    (d.since t).nanoseconds.natAbs ≤ Span.longest.nanoseconds := by
  have hd := d.nano_lt
  have ht := t.nano_lt
  have := d.first_le
  have := d.le_last
  have := t.first_le
  have := t.le_last
  unfold Timestamp.firstSecond Timestamp.lastSecond at *
  simp only [since, Span.longest]
  split
  · omega
  · split <;> omega

end Instant
end CampaignControl
