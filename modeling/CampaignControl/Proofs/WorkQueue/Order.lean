import CampaignControl.Proofs.WorkQueue
import Mathlib.Data.List.Nodup

/-!
# The order in which targets are handed out

The entries of a queue are ordered by time and, for the same time, by number, and a target leaves by
the first of its entries that counts (`WorkQueue.turn?`). So targets leave in the order of these
entries (`WorkQueue.take_eq_some_iff`).

Whether an entry counts is told by its time alone. An entry that a target has been called back from
by an earlier request stays where it is, and counts again when the target is later requested for the
old time. Such a target leaves by its old entry, before targets that were waiting for that time when
it was requested the second time (`Ledger.overtaken`). Nothing else disturbs the order in which
targets have come to wait for the same time: a ledger (`Ledger`) keeps every entry that has ever
been made, and in every ledger only a target that has been called back goes before one that has
come to wait earlier (`Ledger.run_orderly`).
-/

namespace CampaignControl
namespace WorkQueue

variable {q q' : WorkQueue} {target other : Target} {due now : Nat} {entry : Entry}

/-! ## Entries in order -/

namespace Entry

variable {e e' e'' : Entry}

/-- An entry is for an earlier time than another one, or has been made earlier for the same time. -/
def Before (e e' : Entry) : Prop := e.due < e'.due ∨ e.due = e'.due ∧ e.number < e'.number

instance (e e' : Entry) : Decidable (e.Before e') := inferInstanceAs (Decidable (_ ∨ _))

theorem Before.asymm (h : e.Before e') : ¬ e'.Before e := by
  unfold Before at *
  omega

theorem Before.trans (h : e.Before e') (h' : e'.Before e'') : e.Before e'' := by
  unfold Before at *
  omega

theorem Before.due_le (h : e.Before e') : e.due ≤ e'.due := by
  unfold Before at h
  omega

end Entry

/-- The entry by which a waiting target will leave: the first of its entries that counts. -/
def turn? (q : WorkQueue) (target : Target) : Option Entry :=
  q.entries.find? fun entry => decide (entry.target = target) && q.isCurrent entry

theorem turn?_eq_some (h : q.turn? target = some entry) :
    entry ∈ q.entries ∧ entry.target = target ∧ q.due? target = some entry.due := by
  have hfound := List.find?_some h
  rw [Bool.and_eq_true, decide_eq_true_eq, isCurrent, decide_eq_true_eq] at hfound
  obtain ⟨rfl, hcur⟩ := hfound
  exact ⟨List.mem_of_find?_eq_some h, rfl, hcur⟩

/-- The first entry that is not dropped is the first one that counts. -/
theorem head?_refresh (q : WorkQueue) : q.refresh.entries.head? = q.entries.find? q.isCurrent := by
  show (q.entries.dropWhile fun e => !q.isCurrent e).head? = _
  induction q.entries with
  | nil => rfl
  | cons e rest ih =>
    cases hcur : q.isCurrent e with
    | true => rw [List.dropWhile_cons_of_neg (by simp [hcur]), List.find?_cons_of_pos hcur]; rfl
    | false =>
      rw [List.dropWhile_cons_of_pos (by simp [hcur]), ih,
        List.find?_cons_of_neg (by simp [hcur])]

/-- The first entry that counts is before all others that do. -/
theorem eq_or_before (hordered : q.entries.Pairwise Entry.Before)
    (hfirst : q.entries.find? q.isCurrent = some entry) {entry' : Entry}
    (hmem : entry' ∈ q.entries) (hcur : q.isCurrent entry' = true) :
    entry' = entry ∨ entry.Before entry' := by
  obtain ⟨-, front, back, hsplit, hfront⟩ := List.find?_eq_some_iff_append.1 hfirst
  rw [hsplit] at hmem hordered
  rcases List.mem_append.1 hmem with hmem | hmem
  · have hnot := hfront entry' hmem
    rw [hcur] at hnot
    cases hnot
  · rcases List.mem_cons.1 hmem with rfl | hmem
    · exact .inl rfl
    · exact .inr ((List.pairwise_cons.1 (List.pairwise_append.1 hordered).2.1).1 entry' hmem)

theorem turn?_of_first (hfirst : q.entries.find? q.isCurrent = some entry) :
    q.turn? entry.target = some entry := by
  obtain ⟨hcur, front, back, hsplit, hfront⟩ := List.find?_eq_some_iff_append.1 hfirst
  refine List.find?_eq_some_iff_append.2 ⟨by simp [hcur], front, back, hsplit, fun e he => ?_⟩
  rw [Bool.not_and, hfront e he, Bool.or_true]

theorem isCurrent_of_turn? (h : q.turn? target = some entry) : q.isCurrent entry = true := by
  obtain ⟨-, htarget, hdue⟩ := turn?_eq_some h
  rw [isCurrent, htarget, hdue]
  exact decide_eq_true rfl

/-- Targets leave in the order of the entries by which they leave. -/
theorem take_eq_some_iff (hordered : q.entries.Pairwise Entry.Before) :
    (q.take now).1 = some target ↔
      ∃ entry, q.turn? target = some entry ∧ entry.due ≤ now ∧
        ∀ other entry', other ≠ target → q.turn? other = some entry' → entry.Before entry' := by
  have hturn : ∀ {first : Entry}, q.entries.find? q.isCurrent = some first → ∀ {t e},
      q.turn? t = some e → e = first ∨ first.Before e :=
    fun hfirst _ _ h => eq_or_before hordered hfirst (turn?_eq_some h).1 (isCurrent_of_turn? h)
  rcases q.take_cases now with ⟨htake, hlate⟩ | ⟨first, rest, hentries, hdue, htake⟩
  · rw [htake]
    refine ⟨nofun, fun ⟨entry, hentry, hdue, _⟩ => ?_⟩
    -- the entry is not before the first one, which is not due
    obtain ⟨first, hfirst⟩ := Option.isSome_iff_exists.1 (List.find?_isSome.2
      ⟨entry, (turn?_eq_some hentry).1, isCurrent_of_turn? hentry⟩)
    have hlater := hlate first (by rw [head?_refresh, hfirst]; rfl)
    rcases hturn hfirst hentry with rfl | hbefore
    · omega
    · have := hbefore.due_le
      omega
  · have hfirst : q.entries.find? q.isCurrent = some first := by
      rw [← head?_refresh, hentries, List.head?_cons]
    rw [htake, Option.some_inj]
    constructor
    · rintro rfl
      refine ⟨first, turn?_of_first hfirst, hdue, fun other entry' hne hentry' => ?_⟩
      refine (hturn hfirst hentry').resolve_left fun heq => hne ?_
      rw [← (turn?_eq_some hentry').2.1, heq]
    · rintro ⟨entry, hentry, -, hleast⟩
      by_contra hne
      have hbefore := hleast _ first hne (turn?_of_first hfirst)
      rcases hturn hfirst hentry with rfl | hafter
      · exact hne (turn?_eq_some hentry).2.1
      · exact hbefore.asymm hafter

/-! ## What is known of the entries -/

/-- The last entry that has been made for a target, in a list of entries with the last one first. -/
def lastFor? (made : List Entry) (target : Target) : Option Entry :=
  made.find? fun entry => decide (entry.target = target)

/-- The target of an entry was to be due at the time of the entry, by this entry or an earlier one,
and has been called for an earlier time since. -/
def CalledBack (made : List Entry) (entry : Entry) : Prop :=
  ∃ first ∈ made, ∃ earlier ∈ made,
    first.target = entry.target ∧ first.due = entry.due ∧ first.number ≤ entry.number ∧
      earlier.target = entry.target ∧ earlier.due < entry.due ∧ first.number < earlier.number

/-- The entries that have been made from one queue to a later one. -/
def entered (q q' : WorkQueue) : List Entry := q'.entries.filter (q.made < ·.number)

theorem lastFor?_cons_self (made : List Entry) (entry : Entry) :
    lastFor? (entry :: made) entry.target = some entry :=
  List.find?_cons_of_pos (decide_eq_true rfl)

theorem lastFor?_cons_of_ne {made : List Entry} (h : entry.target ≠ target) :
    lastFor? (entry :: made) target = lastFor? made target :=
  List.find?_cons_of_neg (by simpa using h)

theorem mem_of_lastFor? {made : List Entry} (h : lastFor? made target = some entry) :
    entry ∈ made ∧ entry.target = target :=
  ⟨List.mem_of_find?_eq_some h, by simpa using List.find?_some h⟩

theorem CalledBack.cons {made : List Entry} (h : CalledBack made entry) (new : Entry) :
    CalledBack (new :: made) entry := by
  obtain ⟨first, hfirst, earlier, hearlier, h⟩ := h
  exact ⟨first, List.mem_cons_of_mem _ hfirst, earlier, List.mem_cons_of_mem _ hearlier, h⟩

/-- Later entries for the same time have been called back just as well. -/
theorem CalledBack.of_number_le {made : List Entry} {e : Entry} (h : CalledBack made entry)
    (htarget : entry.target = e.target) (hdue : entry.due = e.due)
    (hnumber : entry.number ≤ e.number) : CalledBack made e := by
  obtain ⟨first, hfirst, earlier, hearlier, htarget', hdue', hle, htarget'', hlt, hafter⟩ := h
  exact ⟨first, hfirst, earlier, hearlier, htarget'.trans htarget, hdue'.trans hdue,
    hle.trans hnumber, htarget''.trans htarget, hdue ▸ hlt, hafter⟩

/-- A queue is what has become of the entries that have been made. They are numbered one by one;
a target waits for the time of the last one that was made for it, and this one is still there; and
what else is there has been called back. -/
structure Kept (q : WorkQueue) (made : List Entry) : Prop where
  sound : q.Sound
  ordered : q.entries.Pairwise Entry.Before
  numbered : made.map (·.number) = (List.range' 1 q.made).reverse
  recorded {entry : Entry} : entry ∈ q.entries → entry ∈ made
  awaited {target : Target} {due : Nat} : q.due? target = some due →
    ∃ entry ∈ q.entries, lastFor? made target = some entry ∧ entry.due = due
  old {entry : Entry} : entry ∈ q.entries →
    ((q.due? entry.target).isSome ∧ lastFor? made entry.target = some entry) ∨
      CalledBack made entry

namespace Kept

variable {made : List Entry}

theorem empty : Kept {} [] where
  sound := .empty
  ordered := List.Pairwise.nil
  numbered := rfl
  recorded h := absurd h List.not_mem_nil
  awaited h := nomatch h
  old h := absurd h List.not_mem_nil

theorem number_le (h : Kept q made) (hmem : entry ∈ made) : entry.number ≤ q.made := by
  have hnumber : entry.number ∈ (List.range' 1 q.made).reverse :=
    h.numbered ▸ List.mem_map.2 ⟨entry, hmem, rfl⟩
  rw [List.mem_reverse, List.mem_range'_1] at hnumber
  omega

theorem descending (h : Kept q made) : made.Pairwise (fun e e' => e'.number < e.number) := by
  have hnumbers : (made.map (·.number)).Pairwise (· > ·) := by
    rw [h.numbered, List.pairwise_reverse]
    exact List.pairwise_lt_range'
  exact List.pairwise_map.1 hnumbers

theorem number_inj (h : Kept q made) {e e' : Entry} (he : e ∈ made) (he' : e' ∈ made)
    (heq : e.number = e'.number) : e = e' := by
  have hnodup : (made.map (·.number)).Nodup := by
    rw [h.numbered, List.nodup_reverse]
    exact List.nodup_range'
  exact List.inj_on_of_nodup_map hnodup he he' heq

/-- The last entry for a target has the highest number. -/
theorem number_le_last (h : Kept q made) {last : Entry} (hlast : lastFor? made target = some last)
    (hmem : entry ∈ made) (htarget : entry.target = target) : entry.number ≤ last.number := by
  obtain ⟨-, front, back, rfl, hfront⟩ := List.find?_eq_some_iff_append.1 hlast
  rcases List.mem_append.1 hmem with hmem | hmem
  · exact absurd (hfront entry hmem) (by simp [htarget])
  · rcases List.mem_cons.1 hmem with rfl | hmem
    · exact Nat.le_refl _
    · have hback := (List.pairwise_append.1 h.descending).2.1
      exact Nat.le_of_lt ((List.pairwise_cons.1 hback).1 entry hmem)

/-- Nothing is made, and nothing that matters here changes. -/
theorem congr (h : Kept q made) (hsound : q'.Sound) (hentries : q'.entries = q.entries)
    (hdue : ∀ target, q'.due? target = q.due? target) (hmade : q'.made = q.made) :
    Kept q' made where
  sound := hsound
  ordered := hentries ▸ h.ordered
  numbered := hmade ▸ h.numbered
  recorded hmem := h.recorded (hentries ▸ hmem)
  awaited hwaits := by
    rw [hentries]
    exact h.awaited (hdue _ ▸ hwaits)
  old hmem := by
    rw [hdue]
    exact h.old (hentries ▸ hmem)

theorem refresh (h : Kept q made) : Kept q.refresh made where
  sound := h.sound.refresh
  ordered := h.ordered.sublist (List.dropWhile_sublist _)
  numbered := h.numbered
  recorded hmem := h.recorded ((List.dropWhile_sublist _).subset hmem)
  awaited {t d} hwaits := by
    obtain ⟨entry, hmem, hlast, rfl⟩ := h.awaited hwaits
    obtain ⟨-, rfl⟩ := mem_of_lastFor? hlast
    exact ⟨entry, mem_refresh hmem hwaits, hlast, rfl⟩
  old hmem := h.old ((List.dropWhile_sublist _).subset hmem)

/-- What remains of a target that has left by another entry than the last one has been called
back. -/
theorem handOut (h : Kept q made) {rest : List Entry} (hentries : q.entries = entry :: rest)
    (hcur : q.due? entry.target = some entry.due) : Kept (q.handOut entry.target rest) made where
  sound := h.sound.handOut hentries
  ordered := (List.pairwise_cons.1 (hentries ▸ h.ordered)).2
  numbered := h.numbered
  recorded hmem := h.recorded (hentries ▸ List.mem_cons_of_mem _ hmem)
  awaited {t d} hwaits := by
    rw [due?_handOut] at hwaits
    split at hwaits
    · cases hwaits
    · next hne =>
      obtain ⟨e, hmem, hlast, hdue⟩ := h.awaited hwaits
      rw [hentries] at hmem
      rcases List.mem_cons.1 hmem with rfl | hmem
      · exact absurd (mem_of_lastFor? hlast).2 hne
      · exact ⟨e, hmem, hlast, hdue⟩
  old {e} hmem := by
    have hbefore : entry.Before e := (List.pairwise_cons.1 (hentries ▸ h.ordered)).1 e hmem
    have hold := h.old (hentries ▸ List.mem_cons_of_mem _ hmem)
    rw [due?_handOut]
    split
    · next heq =>
      refine .inr (hold.elim (fun ⟨_, hlast⟩ => ?_) id)
      -- the target has waited by its last entry, and has left by another one
      obtain ⟨last, -, hlast', hdue⟩ := h.awaited hcur
      rw [heq, hlast, Option.some_inj] at hlast'
      subst hlast'
      have hmem' : entry ∈ q.entries := hentries ▸ List.mem_cons_self
      rcases h.old hmem' with ⟨-, hfirst⟩ | hback
      · rw [heq, hlast, Option.some_inj] at hfirst
        subst hfirst
        exact absurd hbefore hbefore.asymm
      · exact hback.of_number_le heq hdue.symm (h.number_le_last hlast (h.recorded hmem') heq)
    · exact hold

theorem enter (h : Kept q made) (hout : target ∉ q.inFlight)
    (hearlier : ∀ present, q.due? target = some present → due < present) :
    Kept (q.enter target due) (⟨due, q.made + 1, target⟩ :: made) where
  sound := h.sound.enter hout
  ordered := by
    refine pairwise_enter h.ordered Entry.Before.trans (fun e he hle => ?_) fun e he hlater => ?_
    · have hnumber := h.number_le (h.recorded he)
      have := of_decide_eq_true hle
      simp only [Entry.Before]
      omega
    · have := of_decide_eq_false hlater
      simp only [Entry.Before]
      omega
  numbered := by
    show _ = (List.range' 1 (q.made + 1)).reverse
    rw [List.map_cons, h.numbered, List.range'_concat, List.reverse_append, Nat.one_mul,
      Nat.add_comm 1]
    rfl
  recorded hmem := by
    rcases mem_enter.1 hmem with rfl | hmem
    · exact List.mem_cons_self
    · exact List.mem_cons_of_mem _ (h.recorded hmem)
  awaited {t d} hwaits := by
    rw [due?_enter] at hwaits
    split at hwaits
    · next heq =>
      cases heq
      cases hwaits
      exact ⟨_, mem_enter.2 (.inl rfl), lastFor?_cons_self .., rfl⟩
    · next hne =>
      obtain ⟨e, hmem, hlast, hdue⟩ := h.awaited hwaits
      exact ⟨e, mem_enter.2 (.inr hmem), (lastFor?_cons_of_ne hne).trans hlast, hdue⟩
  old {e} hmem := by
    rcases mem_enter.1 hmem with rfl | hmem
    · exact .inl ⟨by rw [due?_enter, if_pos rfl]; rfl, lastFor?_cons_self ..⟩
    · rcases h.old hmem with ⟨hwaits, hlast⟩ | hback
      · by_cases heq : target = e.target
        · -- the request has called the target back
          obtain ⟨present, hpresent⟩ := Option.isSome_iff_exists.1 hwaits
          obtain ⟨last, -, hlast', hdue⟩ := h.awaited hpresent
          rw [hlast, Option.some_inj] at hlast'
          subst hlast'
          refine .inr ⟨e, List.mem_cons_of_mem _ (h.recorded hmem), _, List.mem_cons_self, rfl, rfl,
            Nat.le_refl _, heq, ?_, Nat.lt_succ_of_le (h.number_le (h.recorded hmem))⟩
          exact hdue ▸ hearlier present (heq ▸ hpresent)
        · refine .inl ⟨?_, (lastFor?_cons_of_ne heq).trans hlast⟩
          rwa [due?_enter, if_neg heq]
      · exact .inr (hback.cons _)

/-- Entries that are there have been made. -/
theorem filter_eq_nil (h : Kept q made) {entries : List Entry}
    (hentries : ∀ e ∈ entries, e ∈ q.entries) : entries.filter (q.made < ·.number) = [] := by
  refine List.filter_eq_nil_iff.2 fun e he hlater => ?_
  have hnumber := h.number_le (h.recorded (hentries e he))
  have := of_decide_eq_true hlater
  omega

theorem entered_eq_nil (h : Kept q made) (hentries : ∀ e ∈ q'.entries, e ∈ q.entries) :
    entered q q' = [] :=
  h.filter_eq_nil hentries

theorem entered_enter (h : Kept q made) (target : Target) (due : Nat) :
    entered q (q.enter target due) = [⟨due, q.made + 1, target⟩] := by
  show (q.entries.takeWhile _ ++ _ :: q.entries.dropWhile _).filter _ = _
  rw [List.filter_append, h.filter_eq_nil fun e he => List.takeWhile_subset _ he,
    List.filter_cons, if_pos (decide_eq_true (Nat.lt_succ_self _)),
    h.filter_eq_nil fun e he => (List.dropWhile_sublist _).subset he]
  rfl

/-- A request that is accepted makes an entry, and no other one does. -/
theorem schedule (h : Kept q made) (target : Target) (due : Nat) :
    Kept (q.schedule target due) (entered q (q.schedule target due) ++ made) := by
  have hsound := h.sound.schedule target due
  by_cases hin : target ∈ q.inFlight
  · rw [schedule_of_mem hin] at hsound ⊢
    have hnone : entered q (q.defer target due) = [] := h.entered_eq_nil fun _ he => he
    rw [hnone]
    exact h.congr hsound rfl (fun other => due?_defer q target other due) rfl
  · by_cases hacc : q.accepts target due = true
    · rw [schedule_of_accepts hacc, h.entered_enter]
      exact h.enter hin (accepts_iff.1 hacc).2
    · rw [schedule_of_not_accepts hin hacc, h.entered_eq_nil fun _ he => he]
      exact h

theorem take (h : Kept q made) (now : Nat) :
    Kept (q.take now).2 (entered q (q.take now).2 ++ made) := by
  have hsub : ∀ e ∈ q.refresh.entries, e ∈ q.entries :=
    fun _ he => (List.dropWhile_sublist _).subset he
  rcases q.take_cases now with ⟨htake, -⟩ | ⟨entry, rest, hentries, -, htake⟩
  · rw [htake, h.entered_eq_nil hsub]
    exact h.refresh
  · rw [htake, h.entered_eq_nil fun e he => hsub e (hentries ▸ List.mem_cons_of_mem _ he)]
    have hcur : q.refresh.due? entry.target = some entry.due :=
      (due?_refresh ..).trans (isCurrent_head hentries)
    exact h.refresh.handOut hentries hcur

theorem release (h : Kept q made) {deferred : List (Target × Nat)}
    (hdef : ∀ other, Keyed.find? other deferred =
      if target = other then none else Keyed.find? other q.deferred) :
    Kept (q.release target deferred) made :=
  h.congr (h.sound.release hdef) rfl (fun _ => rfl) rfl

theorem finish (h : Kept q made) (target : Target) :
    Kept (q.finish target) (entered q (q.finish target) ++ made) := by
  cases hheld : Keyed.find? target q.deferred with
  | none =>
    have hnone : entered q (q.release target q.deferred) = [] := h.entered_eq_nil fun _ he => he
    rw [finish_of_none hheld, hnone]
    exact h.release (find?_deferred_of_none hheld)
  | some due =>
    rw [finish_of_some hheld]
    exact (h.release fun other => Keyed.find?_erase ..).schedule target due

/-- A waiting target leaves by its last entry, or by an earlier one for the same time, and then it
has been called back. -/
theorem turn (h : Kept q made) {last : Entry} (hwaits : q.due? target = some last.due)
    (hlast : lastFor? made target = some last) :
    ∃ entry, q.turn? target = some entry ∧ entry.due = last.due ∧
      (entry = last ∨ entry ∈ made ∧ entry.number < last.number ∧ CalledBack made last) := by
  obtain ⟨last', hmem, hlast', -⟩ := h.awaited hwaits
  rw [hlast, Option.some_inj] at hlast'
  subst hlast'
  obtain ⟨hmade, rfl⟩ := mem_of_lastFor? hlast
  have hsome : (q.turn? last.target).isSome := by
    refine List.find?_isSome.2 ⟨last, hmem, ?_⟩
    simp [isCurrent, hwaits]
  obtain ⟨entry, hentry⟩ := Option.isSome_iff_exists.1 hsome
  obtain ⟨hin, htarget, hdue⟩ := turn?_eq_some hentry
  rw [hwaits, Option.some_inj] at hdue
  refine ⟨entry, hentry, hdue.symm, ?_⟩
  rcases h.old hin with ⟨-, hown⟩ | hback
  · rw [htarget, hlast, Option.some_inj] at hown
    exact .inl hown.symm
  · by_cases heq : entry = last
    · exact .inl heq
    · have hle := h.number_le_last hlast (h.recorded hin) htarget
      have hne : entry.number ≠ last.number :=
        fun hnumber => heq (h.number_inj (h.recorded hin) hmade hnumber)
      exact .inr ⟨h.recorded hin, Nat.lt_of_le_of_ne hle hne,
        hback.of_number_le htarget hdue.symm hle⟩

end Kept

/-! ## Ledgers -/

/-- A course with every entry that has ever been made, the last one first. -/
structure Ledger where
  course : Course := {}
  made : List Entry := []

namespace Ledger

/-- Makes a call at a time. -/
def perform (l : Ledger) (now : Nat) (call : Call) : Ledger :=
  let course := l.course.perform now call
  { course, made := entered l.course.queue course.queue ++ l.made }

/-- Makes calls on a new queue. -/
def run (calls : List (Nat × Call)) : Ledger :=
  calls.foldl (fun l call => l.perform call.1 call.2) {}

theorem run_concat (calls : List (Nat × Call)) (call : Nat × Call) :
    run (calls ++ [call]) = (run calls).perform call.1 call.2 := by
  rw [run, List.foldl_append]
  rfl

/-- The entry that has set when a waiting target is due: the last one that was made for it. -/
def setBy? (l : Ledger) (target : Target) : Option Entry :=
  (l.course.queue.due? target).bind fun _ => lastFor? l.made target

/-- What is handed out at a time has been set before all else that waits. -/
def IsFairAt (l : Ledger) (now : Nat) : Prop :=
  ∀ target entry, (l.course.queue.take now).1 = some target → l.setBy? target = some entry →
    ∀ other entry', other ≠ target → l.setBy? other = some entry' → entry.Before entry'

theorem kept_perform {l : Ledger} (h : Kept l.course.queue l.made) (now : Nat) (call : Call) :
    Kept (l.perform now call).course.queue (l.perform now call).made := by
  cases call with
  | request target delay =>
    rcases Nat.lt_or_ge (now + delay) horizon with hlt | hge
    · simp only [perform, Course.perform_request_of_lt hlt]
      exact h.schedule target (now + delay)
    · simp only [perform, Course.perform_request_of_le hge]
      rw [h.entered_eq_nil fun _ he => he]
      exact h
  | next =>
    have hqueue : (l.course.perform now .next).queue = (l.course.queue.take now).2 := by
      simp only [Course.perform]
      split <;> next htake => rw [htake]
    simp only [perform, hqueue]
    exact h.take now
  | finish target => exact h.finish target

theorem kept_run (calls : List (Nat × Call)) : Kept (run calls).course.queue (run calls).made := by
  induction calls using List.reverseRecOn with
  | nil => exact Kept.empty
  | append_singleton calls call ih =>
    rw [run_concat]
    exact kept_perform ih call.1 call.2

/-- A ledger goes with the course of the same calls. -/
theorem course_run (calls : List (Nat × Call)) : (run calls).course = Course.run calls := by
  induction calls using List.reverseRecOn with
  | nil => rfl
  | append_singleton calls call ih =>
    rw [run_concat, Course.run_concat, ← ih]
    rfl

/-- The order in which targets are handed out. -/
structure Orderly (l : Ledger) : Prop where
  /-- Entries are numbered one by one as they are made. -/
  numbered : l.made.map (·.number) = (List.range' 1 l.course.queue.made).reverse
  /-- A target waits for the time of the entry that was made for it last. -/
  set {target : Target} {due : Nat} : l.course.queue.due? target = some due ↔
    ∃ entry, l.setBy? target = some entry ∧ entry.due = due
  /-- It leaves by this entry, or by an earlier one for the same time if it was called back from
  there. -/
  turn {target : Target} {last : Entry} : l.setBy? target = some last →
    ∃ entry, l.course.queue.turn? target = some entry ∧ entry.due = last.due ∧
      (entry = last ∨ entry ∈ l.made ∧ entry.number < last.number ∧ CalledBack l.made last)
  /-- What is handed out is due, and leaves by an entry that is before those of all others. -/
  order {now : Nat} {target : Target} : (l.course.queue.take now).1 = some target ↔
    ∃ entry, l.course.queue.turn? target = some entry ∧ entry.due ≤ now ∧
      ∀ other entry', other ≠ target → l.course.queue.turn? other = some entry' →
        entry.Before entry'
  /-- Only a target that was called back goes before one that was set before it. -/
  fair {now : Nat} {target other : Target} {entry entry' : Entry} :
    (l.course.queue.take now).1 = some target → l.setBy? target = some entry →
    ¬ CalledBack l.made entry → other ≠ target → l.setBy? other = some entry' →
    entry.Before entry'

end Ledger

theorem Kept.setBy?_eq_some_iff {l : Ledger} (h : Kept l.course.queue l.made) {last : Entry} :
    l.setBy? target = some last ↔
      l.course.queue.due? target = some last.due ∧ lastFor? l.made target = some last := by
  rw [Ledger.setBy?, Option.bind_eq_some_iff]
  constructor
  · rintro ⟨due, hwaits, hlast⟩
    obtain ⟨last', -, hlast', rfl⟩ := h.awaited hwaits
    rw [hlast, Option.some_inj] at hlast'
    exact ⟨hlast' ▸ hwaits, hlast⟩
  · exact fun ⟨hwaits, hlast⟩ => ⟨last.due, hwaits, hlast⟩

theorem Kept.orderly {l : Ledger} (h : Kept l.course.queue l.made) : l.Orderly where
  numbered := h.numbered
  set {target due} := by
    constructor
    · intro hwaits
      obtain ⟨last, -, hlast, rfl⟩ := h.awaited hwaits
      exact ⟨last, h.setBy?_eq_some_iff.2 ⟨hwaits, hlast⟩, rfl⟩
    · rintro ⟨last, hset, rfl⟩
      exact (h.setBy?_eq_some_iff.1 hset).1
  turn {target last} hset := by
    obtain ⟨hwaits, hlast⟩ := h.setBy?_eq_some_iff.1 hset
    exact h.turn hwaits hlast
  order := take_eq_some_iff h.ordered
  fair {now target other last last'} htake hset hnot hne hset' := by
    obtain ⟨hwaits, hlast⟩ := h.setBy?_eq_some_iff.1 hset
    obtain ⟨hwaits', hlast'⟩ := h.setBy?_eq_some_iff.1 hset'
    obtain ⟨entry, hentry, -, hleast⟩ := (take_eq_some_iff h.ordered).1 htake
    obtain ⟨entry', hentry', hdue', hcases'⟩ := h.turn hwaits' hlast'
    have hbefore : entry.Before entry' := hleast other entry' hne hentry'
    obtain ⟨own, hown, -, hcases⟩ := h.turn hwaits hlast
    rw [hentry, Option.some_inj] at hown
    subst hown
    rcases hcases with rfl | ⟨-, -, hback⟩
    · rcases hcases' with rfl | ⟨-, hnumber, -⟩
      · exact hbefore
      · unfold Entry.Before at *
        omega
    · exact absurd hback hnot

/-- **Targets leave in the order of the entries that count for them.** Whatever calls are made at
whatever times, a target waits for the time of the entry that was made for it last, and it leaves
when it is due by the first entry that it has for this time, before all that leave by later ones.
This is the entry that was made last, unless the target was to be due at this time before and has
been called back since; so only such a target leaves before one that has come to wait for the same
time earlier. -/
theorem Ledger.run_orderly (calls : List (Nat × Call)) :
    (Ledger.run calls).course = Course.run calls ∧ (Ledger.run calls).Orderly :=
  ⟨Ledger.course_run calls, (Ledger.kept_run calls).orderly⟩

/-- A target that has been called back and is requested for the old time again leaves before one
that has come to wait for this time in between. -/
theorem Ledger.overtaken : ¬ ∀ (calls : List (Nat × Call)) (now : Nat),
    (calls.map Prod.fst ++ [now]).Pairwise (· ≤ ·) → (Ledger.run calls).IsFairAt now := by
  intro h
  let first : Target := .workUnit ⟨"maint", "a"⟩
  let second : Target := .workUnit ⟨"maint", "b"⟩
  let calls : List (Nat × Call) :=
    [(0, .request first 10), (0, .request first 5), (5, .next), (5, .request second 5),
      (5, .finish first), (5, .request first 5)]
  have hbefore := h calls 10 (by decide) first ⟨10, 4, first⟩ (by decide +kernel)
    (by decide +kernel) second ⟨10, 3, second⟩ (by decide) (by decide +kernel)
  revert hbefore
  decide

end WorkQueue
end CampaignControl
