import CampaignControl.Proofs.Keyed
import CampaignControl.WorkQueue
import Mathlib.Data.List.Basic
import Mathlib.Data.List.Induction
import Mathlib.Data.List.MinMax
import Mathlib.Order.RelIso.Basic

/-!
# The work queue as a map of delays

What a queue answers depends on two things only: which targets are in flight, and for each target
the earliest of the times that it has been requested for since it was last handed out
(`WorkQueue.pending?`). A request lowers that time, taking a target forgets it, and finishing a
target leaves it alone. `WorkQueue.Sound` links this map to the entries, of which some do not count
any more: the entries are sorted, and whatever waits has one that counts.

A course (`Course`) is a queue with what has happened to it. In every course the queue answers by
what has been requested, handed out and finished (`Course.run_faithful`).
-/

namespace CampaignControl

namespace Target

theorem slot_injective : Function.Injective slot := by
  intro a b h
  cases a <;> cases b <;> cases h <;> rfl

/-- Targets are ordered as their slots are. -/
def slotEmbedding : ((· < ·) : Target → Target → Prop) ↪r ((· < ·) : Slot → Slot → Prop) where
  toFun := slot
  inj' := slot_injective
  map_rel_iff' := Iff.rfl

instance : IsStrictTotalOrder Target (· < ·) := slotEmbedding.isStrictTotalOrder

end Target

namespace WorkQueue

variable {q : WorkQueue} {target other : Target} {due now : Nat}

/-- The earliest time that a target has been requested for, whether it waits or is in flight. -/
def pending? (q : WorkQueue) (target : Target) : Option Nat :=
  if q.isInFlight target then Keyed.find? target q.deferred else q.due? target

/-- Only targets in flight have requests put off, these do not wait, and whatever waits has an
entry that counts. -/
structure Sound (q : WorkQueue) : Prop where
  ascending : Keyed.Ascending q.scheduled
  sorted : q.entries.Pairwise (·.due ≤ ·.due)
  entered {target : Target} {due : Nat} : q.due? target = some due →
    ∃ entry ∈ q.entries, entry.target = target ∧ entry.due = due
  apart {target : Target} : target ∈ q.inFlight → q.due? target = none
  held {target : Target} : target ∉ q.inFlight → Keyed.find? target q.deferred = none

theorem Sound.empty : Sound {} where
  ascending := List.Pairwise.nil
  sorted := List.Pairwise.nil
  entered h := nomatch h
  apart h := nomatch h
  held _ := rfl

theorem pending?_of_mem (h : target ∈ q.inFlight) :
    q.pending? target = Keyed.find? target q.deferred :=
  if_pos (isInFlight_iff.2 h)

theorem pending?_of_not_mem (h : target ∉ q.inFlight) : q.pending? target = q.due? target :=
  if_neg (isInFlight_iff.not.2 h)

/-- A target that waits is not in flight. -/
theorem Sound.not_mem (hq : q.Sound) (h : q.due? target = some due) : target ∉ q.inFlight := by
  intro hmem
  rw [hq.apart hmem] at h
  cases h

/-! ## Requests -/

theorem schedule_of_mem (h : target ∈ q.inFlight) :
    q.schedule target due = q.defer target due :=
  if_pos (isInFlight_iff.2 h)

theorem schedule_of_accepts (h : q.accepts target due = true) :
    q.schedule target due = q.enter target due := by
  have hout : ¬ q.isInFlight target = true := by
    intro hin
    simp [accepts, hin] at h
  rw [schedule, if_neg hout, if_pos h]

theorem schedule_of_not_accepts (hout : target ∉ q.inFlight) (h : ¬ q.accepts target due = true) :
    q.schedule target due = q := by
  rw [schedule, if_neg (isInFlight_iff.not.2 hout), if_neg h]

@[simp] theorem inFlight_schedule (q : WorkQueue) (target : Target) (due : Nat) :
    (q.schedule target due).inFlight = q.inFlight := by
  unfold schedule
  split
  · rfl
  · split <;> rfl

/-- A new entry has its place behind those that it is not before, whatever the order. -/
theorem pairwise_enter {R : Entry → Entry → Prop} {isEarlier : Entry → Bool} {entry : Entry}
    {entries : List Entry} (h : entries.Pairwise R)
    (htrans : ∀ {e e' e'' : Entry}, R e e' → R e' e'' → R e e'')
    (hbefore : ∀ e ∈ entries, isEarlier e = true → R e entry)
    (hafter : ∀ e ∈ entries, isEarlier e = false → R entry e) :
    (entries.takeWhile isEarlier ++ entry :: entries.dropWhile isEarlier).Pairwise R := by
  induction entries with
  | nil => exact List.pairwise_singleton _ _
  | cons head rest ih =>
    obtain ⟨hhead, hrest⟩ := List.pairwise_cons.1 h
    obtain ⟨hbefore, hbefore'⟩ := List.forall_mem_cons.1 hbefore
    obtain ⟨hafter, hafter'⟩ := List.forall_mem_cons.1 hafter
    cases hearlier : isEarlier head with
    | true =>
      rw [List.takeWhile_cons_of_pos hearlier, List.dropWhile_cons_of_pos hearlier,
        List.cons_append]
      refine List.pairwise_cons.2 ⟨fun e he => ?_, ih hrest hbefore' hafter'⟩
      rcases List.mem_append.1 he with he | he
      · exact hhead e (List.takeWhile_subset _ he)
      · rcases List.mem_cons.1 he with rfl | he
        · exact hbefore hearlier
        · exact hhead e ((List.dropWhile_sublist _).subset he)
    | false =>
      rw [List.takeWhile_cons_of_neg (by simp [hearlier]),
        List.dropWhile_cons_of_neg (by simp [hearlier]), List.nil_append]
      refine List.pairwise_cons.2 ⟨fun e he => ?_, h⟩
      rcases List.mem_cons.1 he with rfl | he
      · exact hafter hearlier
      · exact htrans (hafter hearlier) (hhead e he)

/-- A new entry stands between the entries that are there. -/
theorem mem_enter {entry : Entry} : entry ∈ (q.enter target due).entries ↔
    entry = ⟨due, q.made + 1, target⟩ ∨ entry ∈ q.entries := by
  have hsplit := List.takeWhile_append_dropWhile (p := fun e : Entry => decide (e.due ≤ due))
    (l := q.entries)
  show entry ∈ q.entries.takeWhile _ ++ _ :: q.entries.dropWhile _ ↔ _
  conv_rhs => rw [← hsplit]
  rw [List.mem_append, List.mem_cons, List.mem_append]
  exact or_left_comm

theorem Sound.enter (hq : q.Sound) (h : target ∉ q.inFlight) : (q.enter target due).Sound where
  ascending := hq.ascending.insert target due
  sorted := pairwise_enter hq.sorted Nat.le_trans (fun _ _ => of_decide_eq_true)
    fun _ _ hlater => Nat.le_of_not_le (of_decide_eq_false hlater)
  entered {t d} ht := by
    rw [due?_enter] at ht
    split at ht
    · next heq =>
      cases ht
      exact ⟨_, mem_enter.2 (.inl rfl), heq, rfl⟩
    · obtain ⟨entry, hmem, hentry⟩ := hq.entered ht
      exact ⟨entry, mem_enter.2 (.inr hmem), hentry⟩
  apart {t} ht := by
    have hne : target ≠ t := fun heq => h (heq ▸ ht)
    rw [due?_enter, if_neg hne]
    exact hq.apart ht
  held := hq.held

theorem Sound.defer (hq : q.Sound) (h : target ∈ q.inFlight) : (q.defer target due).Sound where
  ascending := hq.ascending
  sorted := hq.sorted
  entered := hq.entered
  apart := hq.apart
  held {t} ht := by
    have hne : target ≠ t := fun heq => ht (heq ▸ h)
    show Keyed.find? t (Keyed.insert target _ q.deferred) = none
    rw [Keyed.find?_insert, if_neg hne]
    exact hq.held ht

theorem Sound.schedule (hq : q.Sound) (target : Target) (due : Nat) :
    (q.schedule target due).Sound := by
  by_cases hin : target ∈ q.inFlight
  · rw [schedule_of_mem hin]
    exact hq.defer hin
  · by_cases hacc : q.accepts target due = true
    · rw [schedule_of_accepts hacc]
      exact hq.enter hin
    · rw [schedule_of_not_accepts hin hacc]
      exact hq

theorem accepts_iff : q.accepts target due = true ↔
    target ∉ q.inFlight ∧ ∀ present, q.due? target = some present → due < present := by
  rw [accepts, Bool.and_eq_true, Bool.not_eq_true', ← Bool.not_eq_true, isInFlight_iff]
  cases q.due? target <;> simp

theorem due?_schedule (h : target ∉ q.inFlight) :
    (q.schedule target due).due? other =
      if target = other then some ((q.due? target).elim due (min due)) else q.due? other := by
  by_cases hacc : q.accepts target due = true
  · rw [schedule_of_accepts hacc, due?_enter]
    cases hpresent : q.due? target with
    | none => rfl
    | some present =>
      have hlt := (accepts_iff.1 hacc).2 present hpresent
      rw [Option.elim_some, Nat.min_eq_left (Nat.le_of_lt hlt)]
  · rw [schedule_of_not_accepts h hacc]
    obtain ⟨present, hpresent, hle⟩ : ∃ present, q.due? target = some present ∧ present ≤ due := by
      simpa [accepts_iff, h] using hacc
    split
    · next heq => rw [← heq, hpresent, Option.elim_some, Nat.min_eq_right hle]
    · rfl

theorem deferred_schedule (h : target ∉ q.inFlight) :
    (q.schedule target due).deferred = q.deferred := by
  rw [schedule, if_neg (isInFlight_iff.not.2 h)]
  split <;> rfl

theorem find?_deferred_defer (q : WorkQueue) (target other : Target) (due : Nat) :
    Keyed.find? other (q.defer target due).deferred =
      if target = other then some ((Keyed.find? target q.deferred).elim due (min due))
      else Keyed.find? other q.deferred := by
  rw [WorkQueue.defer, Keyed.find?_insert]
  cases Keyed.find? target q.deferred <;> simp [Nat.min_comm]

/-- A request lowers the time that its target is pending for. -/
theorem pending?_schedule (q : WorkQueue) (target other : Target) (due : Nat) :
    (q.schedule target due).pending? other =
      if target = other then some ((q.pending? target).elim due (min due))
      else q.pending? other := by
  by_cases hin : target ∈ q.inFlight
  · rw [pending?_of_mem hin, schedule_of_mem hin]
    by_cases ho : other ∈ q.inFlight
    · rw [pending?_of_mem (q := q.defer target due) ho, pending?_of_mem ho,
        find?_deferred_defer]
    · have hne : target ≠ other := fun heq => ho (heq ▸ hin)
      rw [if_neg hne, pending?_of_not_mem (q := q.defer target due) ho, pending?_of_not_mem ho]
      rfl
  · rw [pending?_of_not_mem hin]
    by_cases ho : other ∈ q.inFlight
    · have hne : target ≠ other := fun heq => hin (heq ▸ ho)
      rw [if_neg hne, pending?_of_mem (by rwa [inFlight_schedule]), pending?_of_mem ho,
        deferred_schedule hin]
    · rw [pending?_of_not_mem (by rwa [inFlight_schedule]), pending?_of_not_mem ho,
        due?_schedule hin]

/-! ## Taking and finishing -/

/-- An entry that counts is not dropped. -/
theorem mem_refresh {entry : Entry} (hmem : entry ∈ q.entries)
    (hcur : q.due? entry.target = some entry.due) : entry ∈ q.refresh.entries := by
  have hkeeps : ∀ entries : List Entry, entry ∈ entries →
      entry ∈ entries.dropWhile fun e => !q.isCurrent e := by
    intro entries
    induction entries with
    | nil => exact id
    | cons head rest ih =>
      intro h
      rw [List.dropWhile_cons]
      split
      · next hstale =>
        rcases List.mem_cons.1 h with rfl | h
        · simp [isCurrent, hcur] at hstale
        · exact ih h
      · exact h
  exact hkeeps q.entries hmem

theorem Sound.refresh (hq : q.Sound) : q.refresh.Sound where
  ascending := hq.ascending
  sorted := hq.sorted.sublist (List.dropWhile_sublist _)
  entered {t d} ht := by
    obtain ⟨entry, hmem, htarget, hdue⟩ := hq.entered ht
    exact ⟨entry, mem_refresh hmem (by rw [htarget, hdue]; exact ht), htarget, hdue⟩
  apart := hq.apart
  held := hq.held

/-- What is in front after the entries that do not count have been dropped, counts. -/
theorem isCurrent_head {entry : Entry} {rest : List Entry}
    (h : q.refresh.entries = entry :: rest) : q.due? entry.target = some entry.due := by
  have hhead : (q.entries.dropWhile fun e => !q.isCurrent e).head? = some entry :=
    (congrArg List.head? h :)
  have hnot := List.head?_dropWhile_not (fun e => !q.isCurrent e) q.entries
  rw [hhead] at hnot
  simpa [isCurrent] using hnot

/-- The queue after its front entry has been handed out. -/
def handOut (q : WorkQueue) (target : Target) (rest : List Entry) : WorkQueue :=
  { q with
    scheduled := Keyed.erase target q.scheduled
    entries := rest
    inFlight := target :: q.inFlight }

theorem due?_handOut (q : WorkQueue) (target other : Target) (rest : List Entry) :
    (q.handOut target rest).due? other = if target = other then none else q.due? other :=
  Keyed.find?_erase ..

/-- Taking looks at the first entry that counts. -/
theorem take_cases (q : WorkQueue) (now : Nat) :
    (q.take now = (none, q.refresh) ∧ ∀ entry ∈ q.refresh.entries.head?, now < entry.due) ∨
      ∃ entry rest, q.refresh.entries = entry :: rest ∧ entry.due ≤ now ∧
        q.take now = (some entry.target, q.refresh.handOut entry.target rest) := by
  cases hentries : q.refresh.entries with
  | nil => exact .inl ⟨by rw [take]; simp only [hentries], nofun⟩
  | cons entry rest =>
    by_cases hdue : entry.due ≤ now
    · refine .inr ⟨entry, rest, rfl, hdue, ?_⟩
      rw [take]; simp only [hentries, if_pos hdue]; rfl
    · refine .inl ⟨by rw [take]; simp only [hentries, if_neg hdue], fun e he => ?_⟩
      rw [List.head?_cons, Option.mem_some_iff] at he
      exact he ▸ Nat.lt_of_not_le hdue

theorem Sound.handOut (hq : q.Sound) {entry : Entry} {rest : List Entry}
    (hentries : q.entries = entry :: rest) : (q.handOut entry.target rest).Sound where
  ascending := hq.ascending.erase _
  sorted := (List.pairwise_cons.1 (hentries ▸ hq.sorted)).2
  entered {t d} ht := by
    rw [due?_handOut] at ht
    split at ht
    · cases ht
    · next hne =>
      obtain ⟨e, hmem, htarget, hd⟩ := hq.entered ht
      rw [hentries] at hmem
      rcases List.mem_cons.1 hmem with rfl | hmem
      · exact absurd htarget hne
      · exact ⟨e, hmem, htarget, hd⟩
  apart {t} ht := by
    rw [due?_handOut]
    split
    · rfl
    · next hne => exact hq.apart ((List.mem_cons.1 ht).resolve_left (Ne.symm hne))
  held ht := hq.held fun hmem => ht (List.mem_cons_of_mem _ hmem)

/-- The first entry has the least due time of all. -/
theorem Sound.head_le (hq : q.Sound) {entry : Entry} (hhead : entry ∈ q.entries.head?)
    (hother : q.due? other = some due) : entry.due ≤ due := by
  obtain ⟨e, hmem, -, rfl⟩ := hq.entered hother
  obtain ⟨rest, hentries⟩ := List.head?_eq_some_iff.1 hhead
  rw [hentries] at hmem
  rcases List.mem_cons.1 hmem with rfl | hmem
  · exact Nat.le_refl _
  · exact (List.pairwise_cons.1 (hentries ▸ hq.sorted)).1 e hmem

/-- Taking hands out a target with the least due time, or nothing because nothing is due. -/
theorem Sound.take_cases (hq : q.Sound) (now : Nat) :
    (q.take now = (none, q.refresh) ∧
      ∀ target due, q.due? target = some due → now < due) ∨
    ∃ target due rest, q.take now = (some target, q.refresh.handOut target rest) ∧
      q.due? target = some due ∧ due ≤ now ∧
      (∀ other later, q.due? other = some later → due ≤ later) ∧
      (q.refresh.handOut target rest).Sound := by
  rcases q.take_cases now with ⟨htake, hlate⟩ | ⟨entry, rest, hentries, hdue, htake⟩
  · refine .inl ⟨htake, fun target due hwaits => ?_⟩
    cases hhead : q.refresh.entries.head? with
    | none =>
      obtain ⟨entry, hmem, -⟩ := hq.refresh.entered hwaits
      rw [List.head?_eq_none_iff.1 hhead] at hmem
      cases hmem
    | some entry => exact Nat.lt_of_lt_of_le (hlate entry hhead) (hq.refresh.head_le hhead hwaits)
  · refine .inr ⟨entry.target, entry.due, rest, htake, isCurrent_head hentries, hdue, ?_,
      hq.refresh.handOut hentries⟩
    intro other later hlater
    exact hq.refresh.head_le (by rw [hentries]; rfl) hlater

/-- What has been handed out is forgotten. -/
theorem pending?_handOut (hq : q.Sound) (hdue : q.due? target = some due) (rest : List Entry) :
    (q.refresh.handOut target rest).pending? other =
      if target = other then none else q.pending? other := by
  have hout := hq.not_mem hdue
  by_cases ho : other ∈ target :: q.inFlight
  · rw [pending?_of_mem (q := q.refresh.handOut target rest) ho]
    show Keyed.find? other q.deferred = _
    split
    · next heq => rw [← heq, hq.held hout]
    · next hne =>
      rw [pending?_of_mem ((List.mem_cons.1 ho).resolve_left (Ne.symm hne))]
  · have hne : target ≠ other := fun heq => ho (heq ▸ List.mem_cons_self)
    rw [pending?_of_not_mem (q := q.refresh.handOut target rest) ho, due?_handOut, if_neg hne,
      if_neg hne, pending?_of_not_mem fun hmem => ho (List.mem_cons_of_mem _ hmem)]
    rfl

/-- The queue after a target is no longer in flight, with these requests still put off. -/
def release (q : WorkQueue) (target : Target) (deferred : List (Target × Nat)) : WorkQueue :=
  { q with inFlight := q.inFlight.filter (· ≠ target), deferred }

section release

variable {deferred : List (Target × Nat)}
  (hdef : ∀ other, Keyed.find? other deferred =
    if target = other then none else Keyed.find? other q.deferred)

theorem mem_inFlight_release :
    other ∈ (q.release target deferred).inFlight ↔ other ∈ q.inFlight ∧ other ≠ target := by
  simp [release]

include hdef

theorem Sound.release (hq : q.Sound) : (q.release target deferred).Sound where
  ascending := hq.ascending
  sorted := hq.sorted
  entered := hq.entered
  apart ht := hq.apart (mem_inFlight_release.1 ht).1
  held {t} ht := by
    show Keyed.find? t deferred = none
    rw [hdef]
    split
    · rfl
    · next hne =>
      exact hq.held fun hmem => ht (mem_inFlight_release.2 ⟨hmem, Ne.symm hne⟩)

theorem pending?_release :
    (q.release target deferred).pending? other =
      if target = other then q.due? target else q.pending? other := by
  by_cases heq : target = other
  · subst heq
    rw [if_pos rfl, pending?_of_not_mem fun hmem => (mem_inFlight_release.1 hmem).2 rfl]
    rfl
  · rw [if_neg heq]
    by_cases ho : other ∈ q.inFlight
    · rw [pending?_of_mem (mem_inFlight_release.2 ⟨ho, Ne.symm heq⟩), pending?_of_mem ho]
      exact (hdef other).trans (if_neg heq)
    · rw [pending?_of_not_mem fun hmem => ho (mem_inFlight_release.1 hmem).1,
        pending?_of_not_mem ho]
      rfl

end release

theorem finish_of_none (h : Keyed.find? target q.deferred = none) :
    q.finish target = q.release target q.deferred := by
  simp only [WorkQueue.finish, h]
  rfl

theorem finish_of_some (h : Keyed.find? target q.deferred = some due) :
    q.finish target = (q.release target (Keyed.erase target q.deferred)).schedule target due := by
  simp only [WorkQueue.finish, h]
  rfl

/-- Where nothing is put off for a target, nothing is taken away. -/
theorem find?_deferred_of_none (h : Keyed.find? target q.deferred = none) (other : Target) :
    Keyed.find? other q.deferred =
      if target = other then none else Keyed.find? other q.deferred := by
  split
  · next heq => rw [← heq, h]
  · rfl

/-- Finishing a target ends its flight and changes nothing else in what is pending. -/
theorem Sound.finish (hq : q.Sound) (target : Target) :
    (q.finish target).Sound ∧
      (∀ other, other ∈ (q.finish target).inFlight ↔ other ∈ q.inFlight ∧ other ≠ target) ∧
      ∀ other, (q.finish target).pending? other = q.pending? other := by
  cases hheld : Keyed.find? target q.deferred with
  | none =>
    have hdef := find?_deferred_of_none hheld
    rw [finish_of_none hheld]
    refine ⟨hq.release hdef, fun other => mem_inFlight_release, fun other => ?_⟩
    rw [pending?_release hdef]
    split
    · next heq =>
      subst heq
      by_cases hin : target ∈ q.inFlight
      · rw [pending?_of_mem hin, hheld, hq.apart hin]
      · rw [pending?_of_not_mem hin]
    · rfl
  | some due =>
    have hdef : ∀ other, Keyed.find? other (Keyed.erase target q.deferred) =
        if target = other then none else Keyed.find? other q.deferred :=
      fun other => Keyed.find?_erase ..
    have hin : target ∈ q.inFlight := by
      by_contra hout
      rw [hq.held hout] at hheld
      cases hheld
    rw [finish_of_some hheld]
    refine ⟨(hq.release hdef).schedule target due, fun other => ?_, fun other => ?_⟩
    · rw [inFlight_schedule, mem_inFlight_release]
    · rw [pending?_schedule, pending?_release hdef, pending?_release hdef, if_pos rfl,
        hq.apart hin]
      split
      · next heq => rw [← heq, pending?_of_mem hin, hheld]; rfl
      · rfl

/-! ## The number of waiting targets -/

/-- The waiting targets, each of them once. -/
def waiting (q : WorkQueue) : List Target := q.scheduled.map Prod.fst

theorem Sound.nodup_waiting (hq : q.Sound) : q.waiting.Nodup := by
  refine (Keyed.Ascending.iff_map_fst.1 hq.ascending).imp fun {a b} hlt heq => ?_
  subst heq
  exact irrefl (r := (· < ·)) a hlt

theorem Sound.mem_waiting (hq : q.Sound) :
    target ∈ q.waiting ↔ ∃ due, q.due? target = some due := by
  constructor
  · intro h
    obtain ⟨⟨t, due⟩, hmem, rfl⟩ := List.mem_map.1 h
    exact ⟨due, hq.ascending.mem_iff.1 hmem⟩
  · rintro ⟨due, hdue⟩
    exact List.mem_map.2 ⟨(target, due), hq.ascending.mem_iff.2 hdue, rfl⟩

@[simp] theorem length_waiting (q : WorkQueue) : q.waiting.length = q.length :=
  List.length_map ..

theorem length_handOut_lt (h : q.due? target = some due) (rest : List Entry) :
    (q.refresh.handOut target rest).length < q.length :=
  Keyed.length_erase_lt h

/-- What so many looks into a queue at one time hand out. -/
def takes (now : Nat) : Nat → WorkQueue → List Target
  | 0, _ => []
  | count + 1, q =>
    match q.take now with
    | (none, _) => []
    | (some target, q) => target :: q.takes now count

/-- As many looks as there are waiting targets hand out everything that is due, each target
once. -/
theorem Sound.takes (now : Nat) {count : Nat} : {q : WorkQueue} → q.Sound → q.length ≤ count →
    (q.takes now count).Nodup ∧
      ∀ target, target ∈ q.takes now count ↔ ∃ due, q.due? target = some due ∧ due ≤ now := by
  induction count with
  | zero =>
    intro q hq hlen
    have hnil : q.waiting = [] := List.length_eq_zero_iff.1 (by rw [length_waiting]; omega)
    refine ⟨List.nodup_nil, fun target => ⟨nofun, fun ⟨due, hdue, _⟩ => ?_⟩⟩
    have := hq.mem_waiting.2 ⟨due, hdue⟩
    rw [hnil] at this
    cases this
  | succ count ih =>
    intro q hq hlen
    rcases hq.take_cases now with ⟨htake, hlate⟩ | ⟨t, d, rest, htake, hdue, hle, -, hsound⟩
    · rw [WorkQueue.takes, htake]
      refine ⟨List.nodup_nil, fun target => ⟨nofun, fun ⟨due, hdue, hle⟩ => ?_⟩⟩
      have := hlate target due hdue
      omega
    · have hshort := length_handOut_lt hdue rest
      obtain ⟨hnodup, hmem⟩ := ih hsound (by omega)
      rw [WorkQueue.takes, htake]
      simp only [due?_handOut, due?_refresh] at hmem
      constructor
      · refine List.nodup_cons.2 ⟨fun h => ?_, hnodup⟩
        obtain ⟨due, hnone, -⟩ := (hmem t).1 h
        simp at hnone
      · intro target
        rw [List.mem_cons, hmem]
        by_cases heq : t = target
        · subst heq
          simp only [true_or, true_iff]
          exact ⟨d, hdue, hle⟩
        · simp [heq, Ne.symm heq]

/-! ## Courses -/

/-- A call of a queue: a request for a target after a delay, a look for a target that is due, or
the report that a target is finished. -/
inductive Call where
  | request (target : Target) (delay : Nat)
  | next
  | finish (target : Target)
  deriving DecidableEq, Repr

/-- What has come of a call. -/
inductive Deed where
  | requested (target : Target) (due : Nat)
  | handedOut (target : Target)
  | finished (target : Target)
  deriving DecidableEq, Repr

/-- A queue with what has happened to it, the last thing first. -/
structure Course where
  past : List Deed := []
  queue : WorkQueue := {}

namespace Course

/-- Makes a call at a time. A request that fails is none. -/
def perform (c : Course) (now : Nat) : Call → Course
  | .request target delay =>
    match c.queue.requestAfter? target now delay with
    | none => c
    | some (_, queue) => { past := .requested target (now + delay) :: c.past, queue }
  | .next =>
    match c.queue.take now with
    | (none, queue) => { c with queue }
    | (some target, queue) => { past := .handedOut target :: c.past, queue }
  | .finish target =>
    { past := .finished target :: c.past, queue := c.queue.finish target }

theorem perform_request_of_lt {now delay : Nat} (h : now + delay < horizon) (c : Course)
    (target : Target) : c.perform now (.request target delay) =
      { past := .requested target (now + delay) :: c.past
        queue := c.queue.schedule target (now + delay) } := by
  simp only [perform, requestAfter?_of_lt h]

theorem perform_request_of_le {now delay : Nat} (h : horizon ≤ now + delay) (c : Course)
    (target : Target) : c.perform now (.request target delay) = c := by
  simp only [perform, requestAfter?_of_le h]

/-- Makes calls on a new queue. -/
def run (calls : List (Nat × Call)) : Course :=
  calls.foldl (fun c call => c.perform call.1 call.2) {}

theorem run_concat (calls : List (Nat × Call)) (call : Nat × Call) :
    run (calls ++ [call]) = (run calls).perform call.1 call.2 := by
  rw [run, List.foldl_append]
  rfl

end Course

/-- Whether a target has been handed out and not finished since. -/
def IsOut (target : Target) : List Deed → Prop
  | [] => False
  | .requested .. :: past => IsOut target past
  | .handedOut other :: past => other = target ∨ IsOut target past
  | .finished other :: past => other ≠ target ∧ IsOut target past

/-- The times that a target has been requested for since it was last handed out. -/
def requests (target : Target) : List Deed → List Nat
  | [] => []
  | .requested other due :: past =>
    if other = target then due :: requests target past else requests target past
  | .handedOut other :: past => if other = target then [] else requests target past
  | .finished _ :: past => requests target past

/-- Each target that was handed out had been requested since it was handed out before, and been
finished. -/
def Regular : List Deed → Prop
  | [] => True
  | .handedOut target :: past =>
    (¬ IsOut target past ∧ requests target past ≠ []) ∧ Regular past
  | _ :: past => Regular past

/-- The map of delays and the targets in flight are those of the history. -/
structure Course.Follows (c : Course) : Prop where
  sound : c.queue.Sound
  flight (target : Target) : target ∈ c.queue.inFlight ↔ IsOut target c.past
  pending (target : Target) : c.queue.pending? target = (requests target c.past).min?
  regular : Regular c.past

namespace Course.Follows

variable {c : Course}

theorem start : Follows {} where
  sound := .empty
  flight _ := by simp [IsOut]
  pending _ := rfl
  regular := trivial

theorem perform (h : c.Follows) (now : Nat) (call : Call) : (c.perform now call).Follows := by
  cases call with
  | request target delay =>
    rcases Nat.lt_or_ge (now + delay) horizon with hlt | hge
    · rw [perform_request_of_lt hlt]
      refine ⟨h.sound.schedule target _, fun t => ?_, fun t => ?_, h.regular⟩
      · show t ∈ (c.queue.schedule target _).inFlight ↔ IsOut t c.past
        rw [inFlight_schedule, h.flight]
      · simp only [pending?_schedule, h.pending, requests]
        split
        · next heq => rw [heq, List.min?_cons]
        · rfl
    · rw [perform_request_of_le hge]
      exact h
  | next =>
    rcases h.sound.take_cases now with ⟨htake, -⟩ | ⟨target, due, rest, htake, hdue, -, -, hsound⟩
    · simp only [Course.perform, htake]
      exact ⟨h.sound.refresh, h.flight, h.pending, h.regular⟩
    · have hout := h.sound.not_mem hdue
      simp only [Course.perform, htake]
      refine ⟨hsound, fun t => ?_, fun t => ?_, ⟨?_, ?_⟩, h.regular⟩
      · show t ∈ target :: c.queue.inFlight ↔ target = t ∨ IsOut t c.past
        rw [List.mem_cons, h.flight, eq_comm]
      · simp only [pending?_handOut h.sound hdue, requests]
        split
        · rfl
        · exact h.pending t
      · rwa [← h.flight]
      · intro hnil
        have := h.pending target
        rw [hnil, pending?_of_not_mem hout, hdue] at this
        cases this
  | finish target =>
    obtain ⟨hsound, hflight, hpending⟩ := h.sound.finish target
    refine ⟨hsound, fun t => ?_, fun t => (hpending t).trans (h.pending t), h.regular⟩
    show t ∈ (c.queue.finish target).inFlight ↔ target ≠ t ∧ IsOut t c.past
    rw [hflight, h.flight, and_comm, ne_comm]

theorem run (calls : List (Nat × Call)) : (Course.run calls).Follows := by
  induction calls using List.reverseRecOn with
  | nil => exact start
  | append_singleton calls call ih =>
    rw [run_concat]
    exact ih.perform call.1 call.2

end Course.Follows

section past

variable {earlier between later past : List Deed}

theorem Regular.of_append (h : Regular (later ++ past)) : Regular past := by
  induction later with
  | nil => exact h
  | cons deed later ih =>
    cases deed with
    | requested | finished => exact ih h
    | handedOut => exact ih h.2

/-- What has been handed out and is not out any more has been finished meanwhile. -/
theorem finished_of_not_isOut (h : ¬ IsOut target (between ++ .handedOut target :: earlier)) :
    .finished target ∈ between := by
  induction between with
  | nil => exact absurd (.inl rfl) h
  | cons deed between ih =>
    cases deed with
    | requested => exact List.mem_cons_of_mem _ (ih h)
    | handedOut => exact List.mem_cons_of_mem _ (ih fun hout => h (.inr hout))
    | finished t =>
      by_cases heq : t = target
      · rw [heq]
        exact List.mem_cons_self
      · exact List.mem_cons_of_mem _ (ih fun hout => h ⟨heq, hout⟩)

end past

/-- What a queue answers is what its history asks for. -/
structure Course.Faithful (c : Course) : Prop where
  /-- No target both waits and is in flight. -/
  apart {target : Target} {due : Nat} :
    c.queue.due? target = some due → target ∉ c.queue.inFlight
  /-- Requests are put off for targets in flight only. -/
  deferred {target : Target} {due : Nat} :
    Keyed.find? target c.queue.deferred = some due → target ∈ c.queue.inFlight
  /-- In flight is what has been handed out and not finished since. -/
  flight (target : Target) : target ∈ c.queue.inFlight ↔ IsOut target c.past
  /-- A target is not handed out again before it is finished. -/
  alternates {target : Target} {later between earlier : List Deed} :
    c.past = later ++ .handedOut target :: (between ++ .handedOut target :: earlier) →
      .finished target ∈ between
  /-- A target is handed out only if it has been requested since it was handed out before. -/
  asked {target : Target} {later earlier : List Deed} :
    c.past = later ++ .handedOut target :: earlier → requests target earlier ≠ []
  /-- What is not in flight waits for the earliest time that it has been requested for since it was
  last handed out. -/
  earliest {target : Target} : target ∉ c.queue.inFlight →
    c.queue.due? target = (requests target c.past).min?
  /-- Handed out is something that is due, before everything that is due later. -/
  least {now : Nat} {target : Target} : (c.queue.take now).1 = some target →
    ∃ due, c.queue.due? target = some due ∧ due ≤ now ∧
      ∀ other later, c.queue.due? other = some later → due ≤ later
  /-- Something is handed out exactly when something is due. -/
  prompt (now : Nat) : (c.queue.take now).1.isSome ↔
    ∃ target due, c.queue.due? target = some due ∧ due ≤ now
  /-- Looking often enough hands out everything that is due, each target once. -/
  drains (now : Nat) : (c.queue.takes now c.queue.length).Nodup ∧
    ∀ target, target ∈ c.queue.takes now c.queue.length ↔
      ∃ due, c.queue.due? target = some due ∧ due ≤ now
  /-- The length counts the targets that wait. -/
  counts : ∃ waiting : List Target, waiting.Nodup ∧ waiting.length = c.queue.length ∧
    ∀ target, target ∈ waiting ↔ ∃ due, c.queue.due? target = some due

theorem Course.Follows.faithful {c : Course} (h : c.Follows) : c.Faithful where
  apart := h.sound.not_mem
  deferred {t d} hd := by
    by_contra hout
    rw [h.sound.held hout] at hd
    cases hd
  flight := h.flight
  alternates heq := finished_of_not_isOut (heq ▸ h.regular).of_append.1.1
  asked heq := (heq ▸ h.regular).of_append.1.2
  earliest hout := (pending?_of_not_mem hout).symm.trans (h.pending _)
  least {now t} ht := by
    rcases h.sound.take_cases now with ⟨htake, -⟩ | ⟨t', due, rest, htake, hdue, hle, hmin, -⟩
    · rw [htake] at ht
      cases ht
    · rw [htake] at ht
      cases ht
      exact ⟨due, hdue, hle, hmin⟩
  prompt now := by
    rcases h.sound.take_cases now with ⟨htake, hlate⟩ | ⟨t, due, rest, htake, hdue, hle, -⟩
    · rw [htake]
      refine ⟨nofun, fun ⟨t, due, hdue, hle⟩ => ?_⟩
      have := hlate t due hdue
      omega
    · rw [htake]
      exact ⟨fun _ => ⟨t, due, hdue, hle⟩, fun _ => rfl⟩
  drains now := h.sound.takes now (Nat.le_refl _)
  counts := ⟨c.queue.waiting, h.sound.nodup_waiting, length_waiting _, fun _ => h.sound.mem_waiting⟩

/-- **A queue is a map of delays.** Whatever calls are made at whatever times, a new queue answers
by its history. A request belongs to the history if the clock can show the time that it is for; it
fails otherwise, and leaves queue and history as they are. -/
theorem Course.run_faithful (calls : List (Nat × Call)) :
    (Course.run calls).Faithful ∧
      ∀ now target delay,
        (now + delay < horizon → ((Course.run calls).perform now (.request target delay)).past =
          .requested target (now + delay) :: (Course.run calls).past) ∧
        (horizon ≤ now + delay →
          (Course.run calls).perform now (.request target delay) = Course.run calls) := by
  refine ⟨(Course.Follows.run calls).faithful, fun now target delay => ⟨fun h => ?_, fun h => ?_⟩⟩
  · rw [Course.perform_request_of_lt h]
  · exact Course.perform_request_of_le h _ target

/-- A target that waits for five nanoseconds, with a request for it that makes a difference and one
that fails. -/
theorem Course.run_faithful_sample :
    let target : Target := .campaign ⟨"maint", "nightly"⟩
    let c := Course.run [(0, .request target 5)]
    (c.queue.take 5).1.isSome ∧
      (1 + 3 < horizon ∧ (c.perform 1 (.request target 3)).past = .requested target 4 :: c.past) ∧
      (horizon ≤ 1 + horizon ∧ c.perform 1 (.request target horizon) = c) := by
  intro target c
  obtain ⟨hfaithful, hrequest⟩ := Course.run_faithful [(0, .request target 5)]
  have hdue : c.queue.due? target = some 5 := by decide
  exact ⟨(hfaithful.prompt 5).2 ⟨target, 5, hdue, Nat.le_refl 5⟩,
    ⟨by decide, (hrequest 1 target 3).1 (by decide)⟩,
    ⟨by decide, (hrequest 1 target horizon).2 (by decide)⟩⟩

/-- A target that is requested for a time that the clock cannot show does not come to wait. -/
theorem Course.request_lost : ¬ ∀ (calls : List (Nat × Call)) (now delay : Nat) (target : Target),
    (calls.map Prod.fst ++ [now]).Pairwise (· ≤ ·) → target ∉ (Course.run calls).queue.inFlight →
      ∃ due ≤ now + delay,
        ((Course.run calls).perform now (.request target delay)).queue.due? target = some due := by
  intro h
  obtain ⟨due, -, hdue⟩ := h [] 0 horizon (.campaign ⟨"maint", "nightly"⟩) (by decide) (by decide)
  rw [Course.perform_request_of_le (Nat.le_add_left horizon 0)] at hdue
  cases hdue

end WorkQueue
end CampaignControl
