import CampaignControl.Proofs.Fleet.Notices
import CampaignControl.Proofs.Fleet.Rounds
import Mathlib.Data.List.Chain

/-!
# The phases of work units and the events about them

A run of a fleet together with what happens in it, one after another (`Fleet.Chronicle`): no task is
abandoned, lifecycle passes over one work unit follow each other, and whatever is requested from
outside touches no phase. How the phase of an incarnation has changed (`Fleet.changes`) and what has
been made known of it (`Fleet.announcements`) are lists of one kind, each entry with its author.

A change that a task owes an event about comes behind all that has been announced
(`Fleet.changes_eq`), since the task is in progress and keeps every other pass from its work unit.
So the events mirror the changes exactly, one after another and pass by pass, except that the pass
in progress may be one behind (`Fleet.phase_events`).
-/

namespace CampaignControl
namespace Fleet

open Lifecycle (unitSlot owed owed_append Clear Owes)

/-! ## Chronicles -/

/-- A request that has been answered. -/
structure Happening where
  /-- The position of the task that has made it, unless it came from outside. -/
  author : Option Nat
  /-- What the task had been answered before. -/
  past : List Exchange
  exchange : Exchange

/-- Where anything is requested from outside. -/
def wildRules : Rules repertoire := rulesFor fun _ => True

/-- A run in which no task is abandoned and nobody outside touches a phase, and what happens in
it. -/
inductive Chronicle : List Happening → World repertoire → Prop where
  | empty : Chronicle [] {}
  | start {log : List Happening} {w : World repertoire} (job : repertoire.Job) : Chronicle log w →
    (∀ t ∈ w.tasks, t.InProgress → ¬ Excludes t.job job) →
    Chronicle log { w with tasks := w.tasks ++ [.start job] }
  | answer {log : List Happening} {w : World repertoire} {front back : List (Task repertoire)}
      {t : Task repertoire} {r : Request} {next : r.Reply → Program (repertoire.Result t.job)}
      {reply : r.Reply} {s : Store} : Chronicle log w → w.tasks = front ++ t :: back →
    t.rest = .ask r next → r.Answered w.store reply s →
    Chronicle
      (log ++ [⟨some front.length, t.past, { request := r, reply, before := w.store, after := s }⟩])
      { store := s, tasks := front ++ t.answered r next reply w.store s :: back }
  | outside {log : List Happening} {w : World repertoire} (now : Instant) (r : StoreRequest) :
    Chronicle log w → w.store.KeepsPhases (w.store.serve now r).2 →
    Chronicle
      (log ++ [⟨none, [], { request := .store r, reply := (w.store.serve now r).1
                            before := w.store, after := (w.store.serve now r).2 }⟩])
      { w with store := (w.store.serve now r).2 }

/-- The phase of a work unit has changed, or an event tells so. -/
structure Change where
  author : Option Nat
  old : WorkUnit.Phase
  new : WorkUnit.Phase
  deriving DecidableEq

namespace Happening

/-- How the phase of an incarnation has changed. -/
def change? (uid : Uid) (h : Happening) : Option Change :=
  (h.exchange.moved? uid).map fun c => ⟨h.author, c.1, c.2⟩

/-- What has been made known of the phase of an incarnation, that is the one which the task has met
last at the key of the event. -/
def announcement? (uid : Uid) (h : Happening) : Option Change :=
  match h.exchange.request.event? with
  | some e =>
    if incarnation? e.slot h.past = some uid then
      e.payload.move?.map fun c => ⟨h.author, c.1, c.2⟩
    else none
  | none => none

end Happening

/-- The changes of the phase of an incarnation, in order. -/
def changes (uid : Uid) (log : List Happening) : List Change := log.filterMap (·.change? uid)

/-- The events about changes of the phase of an incarnation, in order. -/
def announcements (uid : Uid) (log : List Happening) : List Change :=
  log.filterMap (·.announcement? uid)

/-- What a task at a position owes. -/
def owing (uid : Uid) (entry : Task repertoire × Nat) : Option Change :=
  (owed uid entry.1.past).map fun c => ⟨some entry.2, c.1, c.2⟩

/-- What tasks owe, which are in a row from a position on. -/
def pending (uid : Uid) (position : Nat) (tasks : List (Task repertoire)) : List Change :=
  (tasks.zipIdx position).filterMap (owing uid)

variable {log : List Happening} {w : World repertoire} {front back : List (Task repertoire)}
  {t : Task repertoire} {uid : Uid} {key : Key} {s s' : Store}

theorem pending_append (uid : Uid) (front back : List (Task repertoire)) (t : Task repertoire) :
    pending uid 0 (front ++ t :: back) = pending uid 0 front ++
      (owing uid (t, front.length)).toList ++ pending uid (front.length + 1) back := by
  simp [pending, List.zipIdx_append, List.filterMap_cons]
  cases owing uid (t, front.length) <;> rfl

theorem pending_eq_nil {position : Nat} {tasks : List (Task repertoire)}
    (h : ∀ t ∈ tasks, owed uid t.past = none) : pending uid position tasks = [] := by
  rw [pending, List.filterMap_eq_nil_iff]
  intro entry hentry
  simp [owing, h entry.1 (List.fst_mem_of_mem_zipIdx hentry)]

theorem changes_append (uid : Uid) (log : List Happening) (h : Happening) :
    changes uid (log ++ [h]) = changes uid log ++ (h.change? uid).toList := by
  simp [changes, List.filterMap_cons]
  cases h.change? uid <;> rfl

theorem announcements_append (uid : Uid) (log : List Happening) (h : Happening) :
    announcements uid (log ++ [h]) = announcements uid log ++ (h.announcement? uid).toList := by
  simp [announcements, List.filterMap_cons]
  cases h.announcement? uid <;> rfl

/-! ## The tasks of a chronicle -/

theorem Chronicle.unabandoned (h : Chronicle log w) : ∀ t ∈ w.tasks, t.abandoned = false := by
  induction h with
  | empty => exact fun _ ht => absurd ht List.not_mem_nil
  | start job _ _ ih =>
    refine fun t ht => (List.mem_append.1 ht).elim (ih t) fun ht => ?_
    cases List.mem_singleton.1 ht
    rfl
  | @answer log w front back t _ _ _ _ _ htasks _ _ ih =>
    rw [htasks] at ih
    exact Task.forall_replace ih (ih t (List.mem_append_right _ List.mem_cons_self))
  | outside _ _ _ _ ih => exact ih

theorem Chronicle.reachable (h : Chronicle log w) : wildRules.Reachable w := by
  refine ⟨trivial, ?_⟩
  induction h with
  | empty => exact .refl
  | start job _ hfree ih => exact ih.tail ⟨.start job hfree, trivial⟩
  | answer h htasks hrest hanswered ih =>
    refine ih.tail ⟨.answer htasks ?_ hrest hanswered, trivial⟩
    exact h.unabandoned _ (htasks ▸ List.mem_append_right _ List.mem_cons_self)
  | outside now r _ _ ih => exact ih.tail ⟨.outside now r trivial, trivial⟩

theorem exists_of_owed {past : List Exchange} {c : WorkUnit.Phase × WorkUnit.Phase}
    (h : owed uid past = some c) :
    ∃ front e back, past = front ++ e :: back ∧ e.moved? uid = some c := by
  induction past using List.reverseRecOn with
  | nil => cases h
  | append_singleton past e ih =>
    rw [owed_append] at h
    split at h
    · cases h
    · cases hmoved : e.moved? uid with
      | some c' =>
        rw [hmoved] at h
        exact ⟨past, e, [], rfl, hmoved.trans h⟩
      | none =>
        rw [hmoved] at h
        obtain ⟨front, e', back, rfl, hmoved'⟩ := ih h
        exact ⟨front, e', back ++ [e], by rw [List.append_assoc]; rfl, hmoved'⟩

/-- A task that owes a change is a lifecycle pass, and has met the incarnation at its key. -/
theorem follows_of_owed {rules : Rules repertoire} (hw : rules.Reachable w) (ht : t ∈ w.tasks)
    {c : WorkUnit.Phase × WorkUnit.Phase} (h : owed uid t.past = some c) :
    ∃ key, t.job.Follows key ∧ w.Met (unitSlot key) uid := by
  obtain ⟨front, e, back, hpast, hmoved⟩ := exists_of_owed h
  obtain ⟨w₀, w₁, htook⟩ := hw.steps.exists_exchange ht hpast
  have hw₀ : rules.Reachable w₀ := ⟨hw.during, htook.before⟩
  have hw₁ : rules.Reachable w₁ := hw₀.of_steps (.single htook.step)
  have hbefore : e.before.Reached := htook.store_before ▸ reached hw₀
  have hafter : e.after.Reached := htook.store_after ▸ reached hw₁
  have hpast₀ : Genuine front e.before := by
    obtain ⟨t₀, ht₀, -, rfl, -⟩ := htook.asked
    exact htook.store_before ▸ htook.before.genuine .empty ht₀
  have hfollows := htook.answered.edits.follows
  rcases (Took.tells hw₀ htook).keeps_or_moves hpast₀ hbefore htook.answered with
    hkeeps | ⟨key, uid', a, b, hfollows', -, hmoves⟩
  · have hnone := hkeeps.moved? hbefore.intact.toSound hafter.intact.toSound hfollows uid
    cases hnone.symm.trans hmoved
  · refine ⟨key, hfollows', t, ht, e, hpast ▸ List.mem_append_right _ List.mem_cons_self, ?_⟩
    obtain ⟨o, found, huid, -⟩ := hmoves.before
    refine ⟨o, found, ?_⟩
    by_contra hne
    have hnone := hmoves.moved?_of_ne hbefore.intact.toSound hafter.intact.toSound hfollows
      fun heq => hne (huid.trans (congrArg some heq.symm))
    cases hnone.symm.trans hmoved

theorem excludes_of_follows {job job' : repertoire.Job} (h : Job.Follows key job)
    (h' : Job.Follows key job') : Excludes job job' := by
  cases job with
  | report => exact h.elim
  | pass job =>
    cases job' with
    | report => exact h'.elim
    | pass job' => exact ⟨key, h, h'⟩

/-- Beside a pass in progress over a work unit no other task owes a change of it. -/
theorem Chronicle.not_owed_beside (h : Chronicle log w) (htasks : w.tasks = front ++ t :: back)
    (hprogress : t.InProgress) (hfollows : t.job.Follows key)
    (hslot : ∀ {slot}, w.Met slot uid → slot = unitSlot key) :
    (∀ t' ∈ front, owed uid t'.past = none) ∧ ∀ t' ∈ back, owed uid t'.past = none := by
  have hw := h.reachable
  have hcontra : ∀ {t' c}, t' ∈ w.tasks → owed uid t'.past = some c →
      t'.InProgress ∧ t'.job.Follows key := by
    intro t' c ht' howed
    obtain ⟨key', hfollows', hmet⟩ := follows_of_owed hw ht' howed
    cases hslot hmet
    refine ⟨⟨h.unabandoned t' ht', Bool.eq_false_iff.2 fun hdone => ?_⟩, hfollows'⟩
    cases (clear_of_done hw ht' hdone hfollows' uid).symm.trans howed
  have hexclusive := hw.exclusive
  rw [htasks] at hexclusive hcontra
  obtain ⟨-, hback, hcross⟩ := List.pairwise_append.1 hexclusive
  constructor
  · intro t' ht'
    cases howed : owed uid t'.past with
    | none => rfl
    | some c =>
      obtain ⟨hprogress', hfollows'⟩ := hcontra (List.mem_append_left _ ht') howed
      exact absurd (excludes_of_follows hfollows' hfollows)
        (hcross t' ht' t List.mem_cons_self hprogress' hprogress)
  · intro t' ht'
    cases howed : owed uid t'.past with
    | none => rfl
    | some c =>
      obtain ⟨hprogress', hfollows'⟩ :=
        hcontra (List.mem_append_right _ (List.mem_cons_of_mem _ ht')) howed
      exact absurd (excludes_of_follows hfollows hfollows')
        ((List.pairwise_cons.1 hback).1 t' ht' hprogress hprogress')

/-! ## What has been changed and what has been made known -/

/-- What happens when a task is answered. -/
structure Occurs (log : List Happening) (w : World repertoire) (front : List (Task repertoire))
    (t : Task repertoire) (back : List (Task repertoire)) (e : Exchange) : Prop where
  chronicle : Chronicle log w
  tasks : w.tasks = front ++ t :: back
  progress : t.InProgress
  tells : Tells t.job t.past e.request
  before : e.before = w.store
  reached : e.after.Reached
  answered : e.request.Answered e.before e.reply e.after

/-- An exchange of a task changes no phase, or it is of a pass that changes one and owes nothing. -/
theorem Occurs.cases {e : Exchange} (h : Occurs log w front t back e) :
    w.store.KeepsPhases e.after ∨ ∃ key uid a b, t.job.Follows key ∧ Clear t.past ∧
      w.store.Moves key uid a b e.after := by
  have hw := h.chronicle.reachable
  have ht : t ∈ w.tasks := h.tasks ▸ List.mem_append_right _ List.mem_cons_self
  have hanswered := h.answered
  rw [h.before] at hanswered
  exact h.tells.keeps_or_moves (hw.steps.genuine .empty ht) (Fleet.reached hw) hanswered

theorem move?_eq_some {payload : Event.Payload} {a b : WorkUnit.Phase}
    (h : payload.move? = some (a, b)) : payload = .phaseChanged a b := by
  cases payload with
  | phaseChanged =>
    cases h
    rfl
  | _ => cases h

theorem eq_of_follows {job : repertoire.Job} {key' : Key} (h : Job.Follows key job)
    (h' : Job.Follows key' job) : key = key' := by
  cases job with
  | report => exact h.elim
  | pass job =>
    cases job with
    | admission => exact h.elim
    | lifecycle => exact Eq.trans (Eq.symm h) h'

/-- What tells of a change of a phase is an event of a pass that owes just this. -/
theorem Occurs.owes {e : Exchange} {a b : WorkUnit.Phase} (h : Occurs log w front t back e)
    (htold : e.told? = some (a, b)) :
    ∃ key event, t.job.Follows key ∧ Owes key a b t.past ∧ e.after = e.before ∧
      e.request.event? = some event ∧ event.slot = unitSlot key ∧
      event.payload = .phaseChanged a b := by
  obtain ⟨request, reply, before, after⟩ := e
  have htells := h.tells
  have hanswered := h.answered
  cases request with
  | store | discover | correlate | measure => cases htold
  | publish event =>
    have hpayload : event.payload = .phaseChanged a b := move?_eq_some htold
    cases hjob : t.job with
    | report =>
      rw [hjob] at htells
      exact htells.elim
    | pass job =>
      rw [hjob] at htells
      cases job with
      | admission =>
        have hnotice : Admission.Notice _ _ _ event.payload := htells
        rw [hpayload] at hnotice
        exact hnotice.elim
      | lifecycle settings key now =>
        obtain ⟨hkey, hnotice⟩ := htells
        rw [hpayload] at hnotice
        refine ⟨key, event, rfl, hnotice, hanswered, rfl, ?_, hpayload⟩
        rw [Event.slot, hpayload, hkey]

/-- Where the identity of a work unit has been met, if it is stored at a key. -/
theorem slot_eq_of_moves {a b : WorkUnit.Phase} {rules : Rules repertoire}
    (hw : rules.Reachable w) (hmoves : w.store.Moves key uid a b s') {slot : Slot}
    (hmet : w.Met slot uid) : slot = unitSlot key := by
  obtain ⟨o, found, huid, -⟩ := hmoves.before
  exact (hw.steps.slot_eq .empty hmet found huid).symm

theorem owing_append {t' : Task repertoire} {e : Exchange} (hpast : t'.past = t.past ++ [e])
    (uid : Uid) (position : Nat) : owing uid (t', position) =
      (if e.told?.isSome then none else e.moved? uid <|> owed uid t.past).map
        fun c => ⟨some position, c.1, c.2⟩ := by
  rw [owing, hpast, owed_append]

theorem Occurs.moved?_eq {e : Exchange} (h : Occurs log w front t back e) (uid : Uid) :
    e.moved? uid = Store.moved? uid w.store e.after := by
  rw [Exchange.moved?, h.before]

/-- Nobody else owes anything while the task has to do with the incarnation. -/
theorem Occurs.pending_beside {e : Exchange} (h : Occurs log w front t back e)
    (hfollows : t.job.Follows key) (hslot : ∀ {slot}, w.Met slot uid → slot = unitSlot key) :
    pending uid 0 front = [] ∧ pending uid (front.length + 1) back = [] := by
  obtain ⟨hfront, hback⟩ := h.chronicle.not_owed_beside h.tasks h.progress hfollows hslot
  exact ⟨pending_eq_nil hfront, pending_eq_nil hback⟩

/-- What the task makes known is what it has owed, and it owes nothing any more. -/
theorem Occurs.pending_of_told {e : Exchange} {t' : Task repertoire} {a b : WorkUnit.Phase}
    (h : Occurs log w front t back e) (hpast : t'.past = t.past ++ [e])
    (htold : e.told? = some (a, b)) (uid : Uid) :
    pending uid 0 w.tasks ++ (Happening.change? uid ⟨some front.length, t.past, e⟩).toList =
      (Happening.announcement? uid ⟨some front.length, t.past, e⟩).toList ++
        pending uid 0 (front ++ t' :: back) := by
  have hw := h.chronicle.reachable
  have ht : t ∈ w.tasks := h.tasks ▸ List.mem_append_right _ List.mem_cons_self
  obtain ⟨key, event, hkey, ⟨uid₀, hinc, howed, hrest⟩, hsame, hevent, hslot, hpayload⟩ :=
    h.owes htold
  have hchange : Happening.change? uid ⟨some front.length, t.past, e⟩ = none := by
    rw [Happening.change?, h.moved?_eq, hsame, h.before, Store.moved?_self]
    rfl
  have hsettled : owing uid (t', front.length) = none := by
    rw [owing_append hpast, htold]
    rfl
  have hannounced : Happening.announcement? uid ⟨some front.length, t.past, e⟩ =
      if uid₀ = uid then some ⟨some front.length, a, b⟩ else none := by
    simp only [Happening.announcement?, hevent, hslot, hinc, hpayload, Option.some.injEq]
    rfl
  rw [h.tasks, pending_append, pending_append, hchange, hsettled, hannounced]
  by_cases heq : uid₀ = uid
  · subst heq
    obtain ⟨key', hkey', hmet'⟩ := follows_of_owed hw ht howed
    cases eq_of_follows hkey hkey'
    obtain ⟨hfront, hback⟩ := h.pending_beside hkey fun hmet => hw.steps.met_inj .empty hmet hmet'
    simp [owing, howed, hfront, hback]
  · simp [owing, hrest uid (Ne.symm heq), heq]

/-- Where the task makes nothing known, it owes from then on what it has changed. -/
theorem Occurs.pending_of_silent {e : Exchange} {t' : Task repertoire}
    (h : Occurs log w front t back e) (hpast : t'.past = t.past ++ [e]) (htold : e.told? = none)
    (uid : Uid) :
    pending uid 0 w.tasks ++ (Happening.change? uid ⟨some front.length, t.past, e⟩).toList =
      (Happening.announcement? uid ⟨some front.length, t.past, e⟩).toList ++
        pending uid 0 (front ++ t' :: back) := by
  have hw := h.chronicle.reachable
  have hsound := hw.sound
  have hafter := h.reached.intact.toSound
  have hfollows := h.answered.edits.follows
  rw [h.before] at hfollows
  have hannounced : Happening.announcement? uid ⟨some front.length, t.past, e⟩ = none := by
    unfold Happening.announcement?
    cases hevent : e.request.event? with
    | none => rfl
    | some event =>
      rw [Exchange.told?, hevent] at htold
      have hmove : event.payload.move? = none := htold
      simp [hmove]
  have hchange : Happening.change? uid ⟨some front.length, t.past, e⟩ =
      (e.moved? uid).map fun c => ⟨some front.length, c.1, c.2⟩ := rfl
  rw [h.tasks, pending_append, pending_append, hannounced, owing_append hpast, htold, hchange]
  have hsame : e.moved? uid = none → pending uid 0 front ++
      (owing uid (t, front.length)).toList ++ pending uid (front.length + 1) back ++
        ((e.moved? uid).map fun c => (⟨some front.length, c.1, c.2⟩ : Change)).toList =
      pending uid 0 front ++ ((e.moved? uid <|> owed uid t.past).map
        fun c => (⟨some front.length, c.1, c.2⟩ : Change)).toList ++
          pending uid (front.length + 1) back := by
    intro hnone
    simp [hnone, owing]
  rcases h.cases with hkeeps | ⟨key, uid', a, b, hkey, hclear, hmoves⟩
  · exact hsame ((h.moved?_eq uid).trans (hkeeps.moved? hsound hafter hfollows uid))
  · by_cases heq : uid' = uid
    · subst heq
      obtain ⟨hfront, hback⟩ := h.pending_beside hkey fun hmet => slot_eq_of_moves hw hmoves hmet
      simp [owing, hclear uid', hfront, hback]
    · exact hsame ((h.moved?_eq uid).trans
        (hmoves.moved?_of_ne hsound hafter hfollows (Ne.symm heq)))

/-- What has been owed, and what is changed then, is made known or owed from then on. -/
theorem Occurs.pending_eq {e : Exchange} {t' : Task repertoire}
    (h : Occurs log w front t back e) (hpast : t'.past = t.past ++ [e]) (uid : Uid) :
    pending uid 0 w.tasks ++ (Happening.change? uid ⟨some front.length, t.past, e⟩).toList =
      (Happening.announcement? uid ⟨some front.length, t.past, e⟩).toList ++
        pending uid 0 (front ++ t' :: back) := by
  cases htold : e.told? with
  | some c => exact h.pending_of_told hpast htold uid
  | none => exact h.pending_of_silent hpast htold uid

theorem Chronicle.occurs {r : Request} {next : r.Reply → Program (repertoire.Result t.job)}
    {reply : r.Reply} (h : Chronicle log w) (htasks : w.tasks = front ++ t :: back)
    (hrest : t.rest = .ask r next) (hanswered : r.Answered w.store reply s) :
    Occurs log w front t back { request := r, reply, before := w.store, after := s } := by
  have hw := h.reachable
  have ht : t ∈ w.tasks := htasks ▸ List.mem_append_right _ List.mem_cons_self
  have hkept := h.unabandoned t ht
  have hmove : wildRules.Move w
      { store := s, tasks := front ++ t.answered r next reply w.store s :: back } :=
    .answer htasks hkept hrest hanswered
  have hafter : wildRules.Reachable
      { store := s, tasks := front ++ t.answered r next reply w.store s :: back } :=
    hw.of_steps (.single ⟨hmove, trivial⟩)
  exact ⟨h, htasks, ⟨hkept, by rw [hrest]; rfl⟩, tells hw ht hrest, rfl, reached hafter, hanswered⟩

/-- What has changed has been made known, or a task still owes it. -/
theorem changes_eq (h : Chronicle log w) (uid : Uid) :
    changes uid log = announcements uid log ++ pending uid 0 w.tasks := by
  induction h with
  | empty => rfl
  | @start log w job _ _ ih =>
    have hpending : pending uid 0 (w.tasks ++ [.start job]) = pending uid 0 w.tasks := by
      rw [pending_append]
      show _ ++ [] ++ [] = _
      rw [List.append_nil, List.append_nil]
    rw [hpending, ih]
  | @answer log w front back t r next reply s h htasks hrest hanswered ih =>
    have hpast : (t.answered r next reply w.store s).past =
        t.past ++ [{ request := r, reply, before := w.store, after := s }] := rfl
    rw [changes_append, announcements_append, ih, List.append_assoc,
      (h.occurs htasks hrest hanswered).pending_eq hpast uid, List.append_assoc]
  | outside now r h hkeeps ih =>
    have hchange := hkeeps.moved? h.reachable.sound (h.reachable.sound.serve now r)
      (Store.serve_follows now r _) uid
    rw [changes_append, announcements_append, ih]
    simp [Happening.change?, Exchange.moved?, hchange, Happening.announcement?, Request.event?]

/-! ## The course of the changes -/

/-- Each change starts from where the one before it has ended, and goes on as it may. -/
structure IsCourse (cs : List Change) : Prop where
  chain : cs.IsChain fun c d => c.new = d.old
  moves : ∀ c ∈ cs, c.old ≠ c.new ∧ c.old.canMoveTo c.new

/-- Whoever moves leaves a phase that is not the end, and does not come to the first one. -/
theorem of_canMoveTo {a b : WorkUnit.Phase} (hne : a ≠ b) (hcan : a.canMoveTo b) :
    a.isTerminal = false ∧ b ≠ .pending := by
  revert hne hcan
  cases a <;> cases b <;> decide

/-- There are at most two changes, and only the last one comes to the end. -/
theorem IsCourse.bounds {cs : List Change} (h : IsCourse cs) :
    cs.length ≤ 2 ∧ cs.countP (·.new.isTerminal) ≤ 1 := by
  obtain ⟨hchain, hmoves⟩ := h
  match cs with
  | [] => exact ⟨Nat.zero_le _, Nat.zero_le _⟩
  | [c] => exact ⟨Nat.le_succ _, List.countP_le_length⟩
  | [c, d] =>
    have hlink : c.new = d.old := (List.isChain_cons_cons.1 hchain).1
    obtain ⟨hd, hcan⟩ := hmoves d (by simp)
    have hfirst : c.new.isTerminal = false := hlink ▸ (of_canMoveTo hd hcan).1
    refine ⟨Nat.le_refl _, ?_⟩
    rw [List.countP_cons, hfirst]
    exact List.countP_le_length
  | c :: d :: f :: rest =>
    -- the second one would have come to the end
    exfalso
    obtain ⟨hcd, hrest⟩ := List.isChain_cons_cons.1 hchain
    obtain ⟨hdf, -⟩ := List.isChain_cons_cons.1 hrest
    obtain ⟨hc, hcanc⟩ := hmoves c (by simp)
    obtain ⟨hd, hcand⟩ := hmoves d (by simp)
    obtain ⟨hf, hcanf⟩ := hmoves f (by simp)
    have hnot := (of_canMoveTo hc hcanc).2
    have hlast := (of_canMoveTo hf hcanf).1
    rw [hcd] at hnot
    rw [← hdf] at hlast
    revert hd hcand hnot hlast
    cases d.old <;> cases d.new <;> decide

/-- The work unit with an identity that is in use is in this phase, if it is stored. -/
structure IsAt (s : Store) (uid : Uid) (phase : WorkUnit.Phase) : Prop where
  issued : ∃ n ≤ s.created, uid = .issued n
  phase : ∀ k o, s.find? (unitSlot k) = some o → o.metadata.uid = some uid →
    o.phase? = some phase

/-- A phase that is not touched stays the same. -/
theorem IsAt.follows {a : WorkUnit.Phase} (h : IsAt s uid a) (hfollows : s.Follows s')
    (hkept : ∀ k o o', s.find? (unitSlot k) = some o → s'.find? (unitSlot k) = some o' →
      o.metadata.uid = some uid → o'.metadata.uid = o.metadata.uid → o'.phase? = o.phase?) :
    IsAt s' uid a := by
  obtain ⟨n, hle, rfl⟩ := h.issued
  refine ⟨⟨n, Nat.le_trans hle hfollows.created_le, rfl⟩, fun k o' found' huid' => ?_⟩
  rcases hfollows.identity found' with ⟨o, found, heq⟩ | ⟨m, hlt, huid⟩
  · rw [hkept k o o' found found' (heq.trans huid') heq.symm]
    exact h.phase k o found (heq.trans huid')
  · have := Uid.issued_inj.1 (Option.some.inj (huid'.symm.trans huid))
    omega

/-- The changes of an incarnation up to a store make a course, which has come to where it is. -/
structure Runs (s : Store) (uid : Uid) (cs : List Change) : Prop extends IsCourse cs where
  last : ∀ c ∈ cs.getLast?, IsAt s uid c.new

theorem Runs.keeps {cs : List Change} (h : Runs s uid cs) (hfollows : s.Follows s')
    (hkeeps : s.KeepsPhases s') : Runs s' uid cs :=
  ⟨h.toIsCourse, fun c hc =>
    (h.last c hc).follows hfollows fun k o o' found found' _ heq => hkeeps k o o' found found' heq⟩

theorem Runs.moves_other {cs : List Change} {uid' : Uid} {a b : WorkUnit.Phase}
    (h : Runs s uid cs) (hfollows : s.Follows s') (hmoves : s.Moves key uid' a b s')
    (hne : uid' ≠ uid) : Runs s' uid cs := by
  refine ⟨h.toIsCourse, fun c hc => (h.last c hc).follows hfollows ?_⟩
  intro k o o' found found' huid heq
  refine hmoves.others k o o' ?_ found found' heq
  rintro rfl
  obtain ⟨o₀, found₀, huid₀, -⟩ := hmoves.before
  cases found.symm.trans found₀
  exact hne (Option.some.inj (huid₀.symm.trans huid))

theorem Runs.moves_on {cs : List Change} {a b : WorkUnit.Phase} (h : Runs s uid cs)
    (hs : s.Sound) (hs' : s'.Sound) (hfollows : s.Follows s') (hmoves : s.Moves key uid a b s')
    (author : Option Nat) : Runs s' uid (cs ++ [⟨author, a, b⟩]) := by
  obtain ⟨o, found, huid, ha⟩ := hmoves.before
  obtain ⟨o', found', huid', hb⟩ := hmoves.after
  refine ⟨⟨?_, fun c hc => ?_⟩, fun c hc => ?_⟩
  · refine h.chain.append (.singleton _) fun c hc d hd => ?_
    cases hd
    have hphase := (h.last c hc).phase key o found huid
    exact Option.some.inj (hphase.symm.trans ha)
  · rcases List.mem_append.1 hc with hc | hc
    · exact h.moves c hc
    · cases List.mem_singleton.1 hc
      exact ⟨hmoves.ne, hmoves.canMove⟩
  · rw [List.getLast?_concat] at hc
    cases hc
    obtain ⟨n, hle, hissued⟩ := hs.issued found
    cases Option.some.inj (huid.symm.trans hissued)
    refine ⟨⟨n, Nat.le_trans hle hfollows.created_le, rfl⟩, fun k o₁ found₁ huid₁ => ?_⟩
    cases hs'.uid_inj found' found₁ (huid'.trans huid₁.symm)
    cases found'.symm.trans found₁
    exact hb

theorem Chronicle.runs (h : Chronicle log w) (uid : Uid) :
    Runs w.store uid (changes uid log) := by
  induction h with
  | empty => exact ⟨⟨.nil, fun _ hc => absurd hc List.not_mem_nil⟩, nofun⟩
  | start _ _ _ ih => exact ih
  | @answer log w front back t r next reply s h htasks hrest hanswered ih =>
    have hoccurs := h.occurs htasks hrest hanswered
    have hs := h.reachable.sound
    have hs' := hoccurs.reached.intact.toSound
    have hfollows := hanswered.edits.follows
    have hchange : ∀ {c}, Store.moved? uid w.store s = c →
        changes uid (log ++ [⟨some front.length, t.past,
          { request := r, reply, before := w.store, after := s }⟩]) =
        changes uid log ++ (c.map fun c => (⟨some front.length, c.1, c.2⟩ : Change)).toList := by
      rintro c rfl
      rw [changes_append]
      rfl
    rcases hoccurs.cases with hkeeps | ⟨key, uid', a, b, -, -, hmoves⟩
    · rw [hchange (hkeeps.moved? hs hs' hfollows uid)]
      show Runs s uid (_ ++ [])
      rw [List.append_nil]
      exact ih.keeps hfollows hkeeps
    · by_cases heq : uid' = uid
      · subst heq
        rw [hchange (hmoves.moved?_eq hs hs')]
        exact ih.moves_on hs hs' hfollows hmoves _
      · rw [hchange (hmoves.moved?_of_ne hs hs' hfollows (Ne.symm heq))]
        show Runs s uid (_ ++ [])
        rw [List.append_nil]
        exact ih.moves_other hfollows hmoves heq
  | @outside log w now r h hkeeps ih =>
    have hfollows := Store.serve_follows now r w.store
    have hnone := hkeeps.moved? h.reachable.sound (h.reachable.sound.serve now r) hfollows uid
    rw [changes_append, Happening.change?, Exchange.moved?, hnone]
    show Runs _ uid (_ ++ [])
    rw [List.append_nil]
    exact ih.keeps hfollows hkeeps

/-! ## The events about an incarnation -/

/-- At most one task owes a change of an incarnation, and it is a pass in progress. -/
theorem Chronicle.pending_cases (h : Chronicle log w) (uid : Uid) :
    pending uid 0 w.tasks = [] ∨ ∃ i t key a b, w.tasks[i]? = some t ∧ t.InProgress ∧
      t.job.Follows key ∧ pending uid 0 w.tasks = [⟨some i, a, b⟩] := by
  by_cases hnone : ∀ t ∈ w.tasks, owed uid t.past = none
  · exact .inl (pending_eq_nil hnone)
  · obtain ⟨t, hnone⟩ := Classical.not_forall.1 hnone
    obtain ⟨ht, hsome⟩ := Classical.not_imp.1 hnone
    obtain ⟨⟨a, b⟩, howed⟩ := Option.ne_none_iff_exists'.1 hsome
    have hw := h.reachable
    obtain ⟨key, hfollows, hmet⟩ := follows_of_owed hw ht howed
    have hprogress : t.InProgress := by
      refine ⟨h.unabandoned t ht, Bool.eq_false_iff.2 fun hdone => ?_⟩
      cases (clear_of_done hw ht hdone hfollows uid).symm.trans howed
    obtain ⟨front, back, htasks⟩ := List.append_of_mem ht
    obtain ⟨hfront, hback⟩ := @Chronicle.not_owed_beside _ _ _ _ _ uid _ h htasks hprogress hfollows
      fun hmet' => hw.steps.met_inj .empty hmet' hmet
    refine .inr ⟨front.length, t, key, a, b, ?_, hprogress, hfollows, ?_⟩
    · simp [htasks]
    · rw [htasks, pending_append, pending_eq_nil hfront, pending_eq_nil hback]
      simp [owing, howed]

/-- Whatever has been made known of a phase has been changed before by the same task. -/
theorem Chronicle.told (h : Chronicle log w) {before : List Happening} {entry : Happening}
    {after : List Happening} {a b : WorkUnit.Phase} (hlog : log = before ++ entry :: after)
    (htold : entry.exchange.told? = some (a, b)) :
    ∃ event uid, entry.exchange.request.event? = some event ∧
      incarnation? event.slot entry.past = some uid ∧
      ⟨entry.author, a, b⟩ ∈ changes uid before := by
  induction h generalizing after with
  | empty => cases before <;> cases hlog
  | start _ _ _ ih => exact ih hlog
  | @answer log w front back t r next reply s h htasks hrest hanswered ih =>
    rcases List.eq_nil_or_concat after with rfl | ⟨after, last, rfl⟩
    · obtain ⟨rfl, hlast⟩ := List.append_inj' hlog rfl
      cases hlast
      obtain ⟨key, event, -, ⟨uid, hinc, howed, -⟩, -, hevent, hslot, -⟩ :=
        (h.occurs htasks hrest hanswered).owes htold
      refine ⟨event, uid, hevent, hslot ▸ hinc, ?_⟩
      rw [changes_eq h uid, htasks, pending_append]
      simp [owing, howed]
    · rw [List.concat_eq_append, ← List.cons_append, ← List.append_assoc] at hlog
      exact ih (List.append_inj' hlog rfl).1
  | @outside log w now r h hkeeps ih =>
    rcases List.eq_nil_or_concat after with rfl | ⟨after, last, rfl⟩
    · obtain ⟨rfl, hlast⟩ := List.append_inj' hlog rfl
      cases hlast
      cases htold
    · rw [List.concat_eq_append, ← List.cons_append, ← List.append_assoc] at hlog
      exact ih (List.append_inj' hlog rfl).1

/-- The events about the phase of an incarnation mirror its changes. -/
structure Mirrored (log : List Happening) (w : World repertoire) (uid : Uid) : Prop where
  /-- Each change has been made known in its turn by the task that has made it. Only the last one
  may be outstanding, while the pass that has made it is in progress. -/
  mirrors : ∃ outstanding, changes uid log = announcements uid log ++ outstanding ∧
    (outstanding = [] ∨ ∃ i t key a b, w.tasks[i]? = some t ∧ t.InProgress ∧ t.job.Follows key ∧
      outstanding = [⟨some i, a, b⟩])
  chain : (announcements uid log).IsChain fun c d => c.new = d.old
  length_le : (announcements uid log).length ≤ 2
  terminal_le : (announcements uid log).countP (·.new.isTerminal) ≤ 1

theorem Chronicle.mirrored (h : Chronicle log w) (uid : Uid) : Mirrored log w uid := by
  have heq := changes_eq h uid
  have hcourse := (h.runs uid).toIsCourse
  obtain ⟨hlength, hterminal⟩ := hcourse.bounds
  have hchain := hcourse.chain
  rw [heq] at hlength hterminal hchain
  rw [List.length_append] at hlength
  rw [List.countP_append] at hterminal
  exact ⟨⟨_, heq, h.pending_cases uid⟩, hchain.left_of_append, by omega, by omega⟩

/-- **The events about phases mirror the store exactly.** For each incarnation the sequence of
events is the sequence of changes of the stored phase, each with its author, except that a pass in
progress may still owe the last one; when no pass is in progress the two are equal. So the events
form a chain of at most two, at most one of which comes to the end. And a task publishes such an
event only after it has changed the phase of the incarnation that it has met, just as the event
says. -/
theorem phase_events (h : Chronicle log w) :
    (∀ uid, Mirrored log w uid) ∧
      ((∀ t ∈ w.tasks, t.rest.isDone) → ∀ uid, announcements uid log = changes uid log) ∧
      ∀ before entry after a b, log = before ++ entry :: after →
        entry.exchange.told? = some (a, b) →
        ∃ event uid, entry.exchange.request.event? = some event ∧
          incarnation? event.slot entry.past = some uid ∧
          ⟨entry.author, a, b⟩ ∈ changes uid before := by
  refine ⟨h.mirrored, fun hdone uid => ?_, fun _ _ _ _ _ hlog htold => h.told hlog htold⟩
  have heq := changes_eq h uid
  rcases h.pending_cases uid with hnone | ⟨i, t, -, -, -, ht, hprogress, -⟩
  · rw [heq, hnone, List.append_nil]
  · cases (hdone t (List.mem_of_getElem? ht)).symm.trans hprogress.2

/-! ## Runs have chronicles -/

/-- Every run of a fleet with its users has a chronicle, unless a task has been abandoned. -/
theorem exists_chronicle {named : Key → Prop} {deletes : Prop}
    (hw : (rules named deletes).Reachable w) (hkept : ∀ t ∈ w.tasks, t.abandoned = false) :
    ∃ log, Chronicle log w := by
  obtain ⟨-, hsteps⟩ := hw
  induction hsteps with
  | refl => exact ⟨[], .empty⟩
  | @tail w w' hsteps hstep ih =>
    obtain ⟨hmove, -⟩ := hstep
    cases hmove with
    | start job hfree =>
      obtain ⟨log, h⟩ := ih fun t ht => hkept t (List.mem_append_left _ ht)
      exact ⟨log, .start job h hfree⟩
    | @answer front back t r next reply s htasks hkept₀ hrest hanswered =>
      obtain ⟨log, h⟩ := ih (htasks ▸ Task.forall_replace hkept hkept₀)
      exact ⟨_, .answer h htasks hrest hanswered⟩
    | @abandon front back t htasks =>
      cases hkept t.abandon (List.mem_append_right _ List.mem_cons_self)
    | outside now r hr =>
      obtain ⟨log, h⟩ := ih hkept
      refine ⟨_, .outside now r h ?_⟩
      apply (Store.serve_outcome h.reachable.sound now r).keepsPhases
      rintro object old rfl
      cases hr.1

/-- What a task has been answered is in the chronicle. -/
theorem Chronicle.exists_entry (h : Chronicle log w) {e : Exchange} (ht : t ∈ w.tasks)
    (he : e ∈ t.past) : ∃ entry ∈ log, entry.exchange = e := by
  induction h generalizing t with
  | empty => cases ht
  | start job _ _ ih =>
    rcases List.mem_append.1 ht with ht | ht
    · exact ih ht he
    · cases List.mem_singleton.1 ht
      cases he
  | @answer log w front back t₀ r next reply s h htasks _ _ ih =>
    have hold : ∀ t' ∈ front ++ t₀ :: back, e ∈ t'.past →
        ∃ entry ∈ log ++ [⟨some front.length, t₀.past,
          { request := r, reply, before := w.store, after := s }⟩], entry.exchange = e := by
      intro t' ht' he'
      obtain ⟨entry, hentry, heq⟩ := ih (htasks ▸ ht') he'
      exact ⟨entry, List.mem_append_left _ hentry, heq⟩
    refine Task.forall_replace hold (fun he => ?_) t ht he
    rcases List.mem_append.1 he with he | he
    · exact hold t₀ (List.mem_append_right _ List.mem_cons_self) he
    · cases List.mem_singleton.1 he
      exact ⟨_, List.mem_append_right _ List.mem_cons_self, rfl⟩
  | outside now r _ _ ih =>
    obtain ⟨entry, hentry, heq⟩ := ih ht he
    exact ⟨entry, List.mem_append_left _ hentry, heq⟩

/-- An execution is created and reported to have completed, and a pass takes this over. -/
def sampleCompletion : List (Turn repertoire) :=
  Lifecycle.sampleFleet ++ Lifecycle.sampleReport ++
    .start (.pass (.lifecycle {} (Lifecycle.sampleUnit 0) .epoch)) ::
      List.replicate 9 (.answer 3 .epoch {} [])

theorem phase_events_sample : ∃ log w uid, Chronicle log w ∧ (∀ t ∈ w.tasks, t.rest.isDone) ∧
    changes uid log ≠ [] ∧ announcements uid log = changes uid log := by
  have hplay : ((rules (fun _ => True) True).play {} sampleCompletion).any fun w =>
      w.tasks.all (fun t => t.rest.isDone && !t.abandoned) &&
      w.tasks.any fun t => t.past.any fun e => decide (e.told? = some (.pending, .succeeded)) := by
    decide +kernel
  obtain ⟨w, hsteps, hplayed⟩ := Rules.exists_of_play hplay
  simp only [Bool.and_eq_true, List.all_eq_true, List.any_eq_true, decide_eq_true_iff,
    Bool.not_eq_true'] at hplayed
  obtain ⟨hdone, t, ht, e, he, htold⟩ := hplayed
  obtain ⟨log, h⟩ := exists_chronicle ⟨trivial, hsteps⟩ fun t ht => (hdone t ht).2
  obtain ⟨-, hequal, htells⟩ := phase_events h
  obtain ⟨entry, hentry, rfl⟩ := h.exists_entry ht he
  obtain ⟨before, after, hlog⟩ := List.append_of_mem hentry
  obtain ⟨event, uid, -, -, hmem⟩ := htells before entry after _ _ hlog htold
  have hdone' : ∀ t ∈ w.tasks, t.rest.isDone := fun t ht => (hdone t ht).1
  refine ⟨log, w, uid, h, hdone', fun hnil => ?_, hequal hdone' uid⟩
  rw [hlog, changes, List.filterMap_append, List.append_eq_nil_iff] at hnil
  rw [changes, hnil.1] at hmem
  cases hmem

end Fleet
end CampaignControl
