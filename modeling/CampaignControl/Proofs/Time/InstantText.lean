import CampaignControl.Proofs.Time.Calendar
import CampaignControl.Time.Rfc3339

/-!
# Reading the text of a point in time

Every instant is read back from its text (`Instant.read?_text`): those with a year of more than
four digits or before the year 0 and those in a leap second like all others. The parts of the
text are read one by one (`readYear_yearText`, `readNumber_padded`, `readPlaces_placesText`), each
whatever follows it in the text.

A timestamp has the text of the instant that it settles to (`Timestamp.text_settled`), so that is
what is read back.
-/

namespace CampaignControl

namespace Timestamp

/-! ## Writing -/

theorem padded_ne_nil (width n : Nat) : padded width n ≠ [] := by simp [padded]

theorem isDigit_of_mem_padded {width n : Nat} {c : Char} (h : c ∈ padded width n) :
    c.isDigit = true := by
  simp only [padded, List.mem_append, List.mem_replicate] at h
  rcases h with ⟨-, rfl⟩ | h
  · decide
  · exact Nat.isDigit_of_mem_toDigits (by decide) (by decide) h

theorem length_padded {width n : Nat} (hw : 0 < width) (h : n < 10 ^ width) :
    (padded width n).length = width := by
  have := (Nat.length_toDigits_le_iff (b := 10) (n := n) (by decide) hw).2 h
  simp only [padded, List.length_append, List.length_replicate]
  omega

theorem ofDigitChars_padded (width n : Nat) : Nat.ofDigitChars 10 (padded width n) 0 = n := by
  simp [padded, Nat.ofDigitChars_append]

end Timestamp

namespace Instant

open Timestamp

theorem not_isBlank_of_isDigit {c : Char} (h : c.isDigit) : isBlank c = false := by
  simp only [Char.isDigit, Bool.and_eq_true, decide_eq_true_eq] at h
  obtain ⟨h0, h9⟩ := h
  have h0 : 48 ≤ c.toNat := UInt32.le_iff_toNat_le.1 h0
  have h9 : c.toNat ≤ 57 := UInt32.le_iff_toNat_le.1 h9
  simp only [isBlank, Bool.or_eq_false_iff, Bool.and_eq_false_iff, decide_eq_false_iff_not]
  omega

theorem trimStart_cons {c : Char} (h : isBlank c = false) (cs : List Char) :
    trimStart (c :: cs) = c :: cs := by simp [trimStart, h]

/-! ## Numbers -/

/-- A number is read from digits, if they are not more than wanted and no digit follows. -/
theorem readNumber_append {most : Nat} {ds rest : List Char} (hne : ds ≠ [])
    (hd : ∀ c ∈ ds, c.isDigit = true) (hl : ds.length ≤ most)
    (hr : ds.length = most ∨ ∀ c ∈ rest.head?, c.isDigit = false) :
    readNumber most (ds ++ rest) = some (Nat.ofDigitChars 10 ds 0, rest) := by
  have hrest : (rest.take (most - ds.length)).takeWhile Char.isDigit = [] := by
    rcases hr with hr | hr
    · simp [hr]
    · cases rest with
      | nil => simp
      | cons c rest =>
        have hc := hr c (by simp)
        cases most - ds.length <;> simp [hc]
  have hdigits : ((ds ++ rest).take most).takeWhile Char.isDigit = ds := by
    rw [List.take_append, List.take_of_length_le hl, List.takeWhile_append_of_pos hd, hrest,
      List.append_nil]
  simp only [readNumber, hdigits, List.isEmpty_iff, hne, if_false, List.drop_left,
    Nat.ofDigitChars_eq_foldl]

theorem trimStart_padded (width n : Nat) (rest : List Char) :
    trimStart (padded width n ++ rest) = padded width n ++ rest := by
  obtain ⟨c, cs, h⟩ := List.exists_cons_of_ne_nil (padded_ne_nil width n)
  rw [h, List.cons_append]
  exact trimStart_cons (not_isBlank_of_isDigit (isDigit_of_mem_padded (h ▸ List.mem_cons_self))) _

/-- A number of the full width is read whatever follows it. -/
theorem readNumber_padded {width n : Nat} (hw : 0 < width) (h : n < 10 ^ width)
    (rest : List Char) : readNumber width (padded width n ++ rest) = some (n, rest) := by
  have hl := length_padded hw h
  rw [readNumber_append (padded_ne_nil width n) (fun _ => isDigit_of_mem_padded) hl.le (.inl hl),
    ofDigitChars_padded]

/-! ## Parts -/

theorem readMark_cons {mark : Char} (h : isBlank mark = false) (cs : List Char) :
    readMark mark (mark :: cs) = some cs := by simp [readMark, trimStart_cons h]

theorem readYear_yearText (year : Int) (rest : List Char) :
    readYear (trimStart (yearText year ++ '-' :: rest)) = some (year, '-' :: rest) := by
  have signed : readNumber (padded 4 year.natAbs ++ '-' :: rest).length
      (padded 4 year.natAbs ++ '-' :: rest) = some (year.natAbs, '-' :: rest) := by
    rw [readNumber_append (padded_ne_nil _ _) (fun _ => isDigit_of_mem_padded) (by simp)
      (.inr (by simp)), ofDigitChars_padded]
  unfold yearText
  by_cases h : 0 ≤ year ∧ year ≤ 9999
  · rw [if_pos h, trimStart_padded]
    have hlt : year.toNat < 10 ^ 4 := by omega
    have hread := readNumber_padded (by decide) hlt ('-' :: rest)
    obtain ⟨c, cs, hcs⟩ := List.exists_cons_of_ne_nil (padded_ne_nil 4 year.toNat)
    have hc := isDigit_of_mem_padded (hcs ▸ List.mem_cons_self : c ∈ padded 4 year.toNat)
    rw [hcs, List.cons_append] at hread ⊢
    unfold readYear
    split
    · next heq => simp only [List.cons.injEq] at heq; rw [heq.1] at hc; cases hc
    · next heq => simp only [List.cons.injEq] at heq; rw [heq.1] at hc; cases hc
    · simp [hread, Int.toNat_of_nonneg h.1]
  · rw [if_neg h, List.cons_append]
    by_cases hneg : year < 0
    · rw [if_pos hneg, trimStart_cons (by decide)]
      simp only [readYear, signed, Option.map_some]
      rw [show -(year.natAbs : Int) = year by omega]
    · rw [if_neg hneg, trimStart_cons (by decide)]
      simp only [readYear, signed, Option.map_some]
      rw [show (year.natAbs : Int) = year by omega]

/-- The places of a number of nanoseconds below a whole one are those of the same number of
units of the last place. -/
theorem readPlaces_padded {width n : Nat} (hw : 0 < width) (hle : width ≤ 9)
    (h : n < 10 ^ width) :
    readPlaces ('.' :: (padded width n ++ ['Z'])) = some (n * 10 ^ (9 - width), ['Z']) := by
  have hl := length_padded hw h
  have hread : readNumber 9 (padded width n ++ ['Z']) = some (n, ['Z']) := by
    rw [readNumber_append (padded_ne_nil _ _) (fun _ => isDigit_of_mem_padded) (by omega)
      (.inr (by simp)), ofDigitChars_padded]
  have hcount : (padded width n ++ ['Z']).length - ['Z'].length = width := by simp [hl]
  simp only [readPlaces, hread, Option.bind_eq_bind, Option.bind_some, hcount]
  rfl

theorem readPlaces_placesText {nano : Nat} (h : nano < 1_000_000_000) :
    readPlaces (placesText nano ++ ['Z']) = some (nano, ['Z']) := by
  unfold placesText
  by_cases h0 : nano = 0
  · subst h0; rfl
  rw [if_neg h0]
  by_cases h6 : nano % 1_000_000 = 0
  · rw [if_pos h6, List.cons_append, readPlaces_padded (by decide) (by decide) (by omega)]
    simp only [Option.some.injEq, Prod.mk.injEq, and_true]
    omega
  rw [if_neg h6]
  by_cases h3 : nano % 1_000 = 0
  · rw [if_pos h3, List.cons_append, readPlaces_padded (by decide) (by decide) (by omega)]
    simp only [Option.some.injEq, Prod.mk.injEq, and_true]
    omega
  · rw [if_neg h3, List.cons_append, readPlaces_padded (by decide) (by decide) (by omega)]
    simp

/-! ## The whole text -/

/-- The second of the minute as it is written, and the nanoseconds after it. -/
theorem chars_eq (t : Instant) : ∃ second nano : Nat, nano < 1_000_000_000 ∧ second ≤ 60 ∧
    (if second = 60 then 59 else second) = t.secondOfDay % 60 ∧
    (if second = 60 then nano + 1_000_000_000 else nano) = t.nano ∧
    t.chars = yearText t.date.year ++ ('-' :: (padded 2 t.date.month ++ ('-' ::
      (padded 2 t.date.day ++ ('T' :: (padded 2 (t.secondOfDay / 3600) ++ (':' ::
        (padded 2 (t.secondOfDay / 60 % 60) ++ (':' :: (padded 2 second ++
          (placesText nano ++ ['Z']))))))))))) := by
  have hfits := t.fits
  have hmod : t.secondOfDay % 60 = 59 ↔ t.second % 60 = 59 := by
    simp only [secondOfDay]; omega
  by_cases hleap : t.inLeapSecond = true
  · have hnano : 1_000_000_000 ≤ t.nano := by simpa [inLeapSecond] using hleap
    have hlast : t.secondOfDay % 60 = 59 := by
      rcases hfits with h | h
      · omega
      · exact hmod.2 h.2
    have hlt : t.nano < 2_000_000_000 := by rcases hfits with h | h <;> omega
    refine ⟨60, t.nano - 1_000_000_000, by omega, le_rfl, ?_, ?_, ?_⟩
    · rw [if_pos rfl, hlast]
    · rw [if_pos rfl]; omega
    · simp [chars, hleap, hlast]
  · have hnano : t.nano < 1_000_000_000 := by simpa [inLeapSecond] using hleap
    refine ⟨t.secondOfDay % 60, t.nano, hnano, by omega, ?_, ?_, ?_⟩
    · rw [if_neg (by omega)]
    · rw [if_neg (by omega)]
    · simp [chars, hleap]

theorem at?_eq_some {t : Instant} {second : Int} {nano : Nat} (hs : second = t.second)
    (hn : nano = t.nano) : at? second nano = some t := by subst hs hn; exact at?_self t

/-- **Every instant is read back from its text.** -/
theorem read?_text (t : Instant) : read? t.text = some t := by
  obtain ⟨second, nano, hnano, hle, hsecond, hplaces, hchars⟩ := t.chars_eq
  have hday : t.secondOfDay < 86400 := by simp only [secondOfDay]; omega
  have hexists : t.date.Exists := Date.exists_ofNumber _
  have hmonth := hexists.month_bounds
  have hdays := hexists.day_le
  have hnumber : t.date.number * 86400 + (t.secondOfDay : Int) = t.second := by
    rw [date, Date.number_ofNumber, secondOfDay]
    omega
  have hlocal : t.date.number * 86400 + ((t.secondOfDay / 3600 * 3600 +
      t.secondOfDay / 60 % 60 * 60 + if second = 60 then 59 else second : Nat) : Int) =
      t.second := by rw [← hnumber, hsecond]; omega
  have hzero : 0 < 1_000_000_000 := by decide
  have hrange : InRange t.second 0 := ⟨t.first_le, t.le_last, by decide⟩
  obtain ⟨here, hstart, hhere⟩ : ∃ here, at? t.second 0 = some here ∧ here.second = t.second :=
    ⟨{ second := t.second, nano := 0, inRange := hrange, isClear := .inl hzero },
      by simp [at?, hrange, Fits], rfl⟩
  have hyear := readYear_yearText t.date.year
  have hdash := readMark_cons (show isBlank '-' = false by decide)
  have hcolon := readMark_cons (show isBlank ':' = false by decide)
  have hnum : ∀ {n : Nat}, n < 10 ^ 2 → ∀ rest,
      readNumber 2 (trimStart (padded 2 n ++ rest)) = some (n, rest) := fun h rest => by
    rw [trimStart_padded, readNumber_padded (by decide) h]
  have hzone : readOffset (trimStart ['Z']) = some (0, []) := rfl
  rw [read?, text, String.toList_ofList, hchars]
  refine Option.bind_eq_some_iff.2 ⟨_, hyear _, ?_⟩
  refine Option.bind_eq_some_iff.2 ⟨_, hdash _, ?_⟩
  refine Option.bind_eq_some_iff.2 ⟨_, hnum (by omega) _, ?_⟩
  refine Option.bind_eq_some_iff.2 ⟨_, hdash _, ?_⟩
  refine Option.bind_eq_some_iff.2 ⟨_, hnum (by omega) _, ?_⟩
  refine Option.bind_eq_some_iff.2 ⟨_, hnum (by omega) _, ?_⟩
  refine Option.bind_eq_some_iff.2 ⟨_, hcolon _, ?_⟩
  refine Option.bind_eq_some_iff.2 ⟨_, hnum (by omega) _, ?_⟩
  refine Option.bind_eq_some_iff.2 ⟨_, hcolon _, ?_⟩
  refine Option.bind_eq_some_iff.2 ⟨_, hnum (by omega) _, ?_⟩
  refine Option.bind_eq_some_iff.2 ⟨_, readPlaces_placesText hnano, ?_⟩
  refine Option.bind_eq_some_iff.2 ⟨_, hzone, ?_⟩
  have hlt : (if second = 60 then 59 else second) < 60 := by split <;> omega
  have hhour : t.secondOfDay / 3600 < 24 := by omega
  have hminute : t.secondOfDay / 60 % 60 < 60 := by omega
  refine (if_pos ⟨hexists, hhour, hminute, hlt, by decide, by decide, rfl⟩).trans ?_
  refine Option.bind_eq_some_iff.2 ⟨_, (congrArg (at? · 0) hlocal).trans hstart, ?_⟩
  exact at?_eq_some (by simp [hhere]) hplaces

end Instant

/-! ## Timestamps -/

namespace Timestamp

variable {t : Timestamp}

theorem settled_of_isClear (h : t.IsClear) : t.settled = { toTimestamp := t, isClear := h } :=
  dif_pos h

/-- Settling leaves alone what lies in no leap second within a minute, and nothing else. -/
theorem toTimestamp_settled_iff : t.settled.toTimestamp = t ↔ t.IsClear := by
  constructor
  · intro h
    rw [← h]
    exact t.settled.isClear
  · intro h
    rw [settled_of_isClear h]

/-- The second after one that does not end a minute is in the same minute. -/
theorem chars_settled_of_not_isClear (h : ¬ t.IsClear) : t.settled.chars = t.chars := by
  have hnano : 1_000_000_000 ≤ t.nano ∧ t.second % 60 ≠ 59 := by
    unfold IsClear at h
    omega
  have hlt := t.nano_lt
  have hsecond : t.settled.second = t.second + 1 := by rw [settled, dif_neg h]
  have hplaces : t.settled.nano = t.nano - 1_000_000_000 := by rw [settled, dif_neg h]
  have hdate : t.settled.date = t.date := by
    rw [date, date, hsecond, show (t.second + 1) / 86400 = t.second / 86400 by omega]
  have hofDay : t.settled.secondOfDay = t.secondOfDay + 1 := by
    rw [secondOfDay, secondOfDay, hsecond]
    omega
  have hminute : t.secondOfDay % 60 ≠ 59 := by
    unfold secondOfDay
    omega
  have hleap : t.inLeapSecond = true := by simpa [inLeapSecond] using hnano.1
  have hnot : t.settled.inLeapSecond = false := by
    simp only [inLeapSecond, hplaces, decide_eq_false_iff_not]
    omega
  simp only [chars, hleap, hnot, hdate, hofDay, hplaces, if_true, Bool.false_eq_true, if_false]
  rw [show (t.secondOfDay + 1) / 3600 = t.secondOfDay / 3600 by omega,
    show (t.secondOfDay + 1) / 60 % 60 = t.secondOfDay / 60 % 60 by omega,
    show (t.secondOfDay + 1) % 60 = t.secondOfDay % 60 + 1 by omega]

theorem text_settled (t : Timestamp) : t.settled.text = t.text := by
  by_cases h : t.IsClear
  · rw [settled_of_isClear h]
  · rw [text, text, chars_settled_of_not_isClear h]

end Timestamp
end CampaignControl
