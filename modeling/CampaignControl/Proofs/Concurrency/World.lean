import CampaignControl.Program
import CampaignControl.Proofs.Store.Sound
import CampaignControl.Rehearsal.Faults

/-!
# Programs side by side

A world is a store and the tasks that work on it. Each task is a program that has been started;
it moves on by one request at a time, and between two of its requests the other tasks may make
theirs, and requests may come from outside. A task can be abandoned at any point, as when its
process dies. Every request to the store may meet faults.

`Rules` say which jobs are not started while which others are in progress, and what comes from
outside. `Rules.Reachable` are the worlds that an empty store comes to in this way;
`Rules.Upheld.holds` is the induction over them, from what a task does to what all tasks do
together.
-/

namespace CampaignControl

universe u

/-- How a request may be answered, and what the store is afterwards. A request to the store is
served at some time and behind some faults; everything else answers as it likes. -/
def Request.Answered : (r : Request) → Store → r.Reply → Store → Prop
  | .store r, s, reply, s' => ∃ (now : Instant) (faults : Faults),
      (Faults.serve now r (faults, s)).1 = reply ∧ (Faults.serve now r (faults, s)).2.2 = s'
  | _, s, _, s' => s' = s

theorem Request.Answered.edits {r : Request} {s s' : Store} {reply : r.Reply}
    (h : r.Answered s reply s') : s.Edits s' := by
  cases r with
  | store r =>
    obtain ⟨now, faults, -, rfl⟩ := h
    unfold Faults.serve
    split
    · exact .refl
    · exact Store.serve_edits now r s
  | discover | correlate | publish | measure => cases h; exact .refl

/-- A request that has been answered. -/
structure Exchange where
  request : Request
  reply : request.Reply
  /-- The store before and after it. -/
  before : Store
  after : Store

/-- Whether a program has no request left to make. -/
def Program.isDone {α : Type} : Program α → Bool
  | done _ => true
  | ask .. => false

/-- The programs that may be run side by side. -/
structure Repertoire where
  Job : Type u
  Result : Job → Type
  program : (job : Job) → Program (Result job)

/-- A job that has been started. -/
structure Task (R : Repertoire.{u}) where
  job : R.Job
  rest : Program (R.Result job)
  /-- The requests that have been answered. -/
  past : List Exchange := []
  abandoned : Bool := false

structure World (R : Repertoire.{u}) where
  store : Store := {}
  tasks : List (Task R) := []

/-- The order in which programs are run. -/
structure Rules (R : Repertoire.{u}) where
  /-- Whether the second job is not started while the first one is in progress. -/
  excludes : R.Job → R.Job → Prop
  /-- Whether a request may come from outside. -/
  outside : StoreRequest → Prop
  /-- What is given of the store all the time. -/
  during : Store → Prop := fun _ => True

variable {R : Repertoire.{u}}

namespace Task

def start (job : R.Job) : Task R := { job, rest := R.program job }

/-- Whether there is something left to do, and somebody to do it. -/
def InProgress (t : Task R) : Prop := t.abandoned = false ∧ t.rest.isDone = false

/-- The task after an answer to its next request. -/
def answered (t : Task R) (r : Request) (next : r.Reply → Program (R.Result t.job))
    (reply : r.Reply) (before after : Store) : Task R :=
  { t with
    rest := next reply
    past := t.past ++ [{ request := r, reply, before, after }] }

def abandon (t : Task R) : Task R := { t with abandoned := true }

end Task

namespace Rules

variable {rules : Rules R}

/-- What can happen in a world. -/
inductive Move (rules : Rules R) (w : World R) : World R → Prop where
  | start (job : R.Job) : (∀ t ∈ w.tasks, t.InProgress → ¬ rules.excludes t.job job) →
    Move rules w { w with tasks := w.tasks ++ [.start job] }
  | answer {front back : List (Task R)} {t : Task R} {r : Request}
      {next : r.Reply → Program (R.Result t.job)} {reply : r.Reply} {s : Store} :
    w.tasks = front ++ t :: back → t.abandoned = false → t.rest = .ask r next →
    r.Answered w.store reply s →
    Move rules w { store := s, tasks := front ++ t.answered r next reply w.store s :: back }
  | abandon {front back : List (Task R)} {t : Task R} : w.tasks = front ++ t :: back →
    Move rules w { w with tasks := front ++ t.abandon :: back }
  | outside (now : Instant) (r : StoreRequest) : rules.outside r →
    Move rules w { w with store := (w.store.serve now r).2 }

/-- A move after which the store is as it is given to be. -/
structure Step (rules : Rules R) (w w' : World R) : Prop where
  move : rules.Move w w'
  during : rules.during w'.store

/-- Any number of steps. -/
abbrev Steps (rules : Rules R) : World R → World R → Prop := Relation.ReflTransGen rules.Step

/-- What the world may come to from an empty store. -/
structure Reachable (rules : Rules R) (w : World R) : Prop where
  during : rules.during ({} : Store)
  steps : rules.Steps {} w

namespace Reachable

theorem of_steps {w w' : World R} (h : rules.Reachable w) (hsteps : rules.Steps w w') :
    rules.Reachable w' := ⟨h.during, h.steps.trans hsteps⟩

/-- What holds at the beginning and is kept by every step from where it holds. -/
theorem induct {P : World R → Prop} (hinit : rules.during ({} : Store) → P {})
    (hstep : ∀ {w w'}, rules.Reachable w → P w → rules.Step w w' → P w') {w : World R}
    (h : rules.Reachable w) : P w := by
  obtain ⟨hduring, hsteps⟩ := h
  induction hsteps with
  | refl => exact hinit hduring
  | tail hsteps hlast ih => exact hstep ⟨hduring, hsteps⟩ ih hlast

theorem during_store {w : World R} (h : rules.Reachable w) : rules.during w.store := by
  obtain ⟨hduring, hsteps⟩ := h
  cases hsteps with
  | refl => exact hduring
  | tail _ hlast => exact hlast.during

end Reachable

/-! ## The store of a world -/

theorem Move.edits {w w' : World R} (h : rules.Move w w') : w.store.Edits w'.store := by
  cases h with
  | start | abandon => exact .refl
  | answer _ _ _ h => exact h.edits
  | outside now r => exact Store.serve_edits now r w.store

theorem Steps.follows {w w' : World R} (h : rules.Steps w w') : w.store.Follows w'.store := by
  induction h with
  | refl => exact .refl _
  | tail _ hstep ih => exact ih.trans hstep.move.edits.follows

theorem Reachable.sound {w : World R} (h : rules.Reachable w) : w.store.Sound :=
  h.induct (P := fun w => w.store.Sound) (fun _ => .empty)
    fun _ hs hstep => hs.edits hstep.move.edits

/-! ## Tasks that exclude each other -/

/-- A task in progress excludes none of those that have been started after it. -/
def Queued (rules : Rules R) (tasks : List (Task R)) : Prop :=
  tasks.Pairwise fun a b => a.InProgress → ¬ rules.excludes a.job b.job

/-- No two tasks in progress exclude each other. -/
def Exclusive (rules : Rules R) (tasks : List (Task R)) : Prop :=
  tasks.Pairwise fun a b => a.InProgress → b.InProgress → ¬ rules.excludes a.job b.job

theorem Queued.exclusive {tasks : List (Task R)} (h : rules.Queued tasks) :
    rules.Exclusive tasks := h.imp fun hexcludes ha _ => hexcludes ha

/-- What holds of the elements of a list in their order holds with another one in the place of one
of them if it holds of that one wherever it did of this one. -/
theorem pairwise_replace {α : Type u} {P : α → α → Prop} {front back : List α} {a b : α}
    (h : (front ++ a :: back).Pairwise P) (hleft : ∀ c, P c a → P c b)
    (hright : ∀ c, P a c → P b c) : (front ++ b :: back).Pairwise P := by
  obtain ⟨hfront, hback, hcross⟩ := List.pairwise_append.1 h
  obtain ⟨ha, hback⟩ := List.pairwise_cons.1 hback
  refine List.pairwise_append.2 ⟨hfront,
    List.pairwise_cons.2 ⟨fun c hc => hright c (ha c hc), hback⟩, fun c hc d hd => ?_⟩
  rcases List.mem_cons.1 hd with rfl | hd
  · exact hleft c (hcross c hc a List.mem_cons_self)
  · exact hcross c hc d (List.mem_cons_of_mem _ hd)

/-- A task may be replaced by one with the same job that is in progress only if it is. -/
theorem Queued.replace {front back : List (Task R)} {t t' : Task R}
    (h : rules.Queued (front ++ t :: back)) (hjob : t'.job = t.job)
    (hprogress : t'.InProgress → t.InProgress) : rules.Queued (front ++ t' :: back) := by
  refine pairwise_replace h (fun a ha => ?_) fun b hb h' => ?_
  · rwa [hjob]
  · rw [hjob]
    exact hb (hprogress h')

theorem Move.queued {w w' : World R} (h : rules.Move w w') (hw : rules.Queued w.tasks) :
    rules.Queued w'.tasks := by
  cases h with
  | start job hfree =>
    refine List.pairwise_append.2 ⟨hw, List.pairwise_singleton .., fun a ha b hb => ?_⟩
    cases List.mem_singleton.1 hb
    exact hfree a ha
  | answer htasks hkept hrest =>
    rw [htasks] at hw
    exact hw.replace rfl fun _ => ⟨hkept, by rw [hrest]; rfl⟩
  | abandon htasks =>
    rw [htasks] at hw
    exact hw.replace rfl fun h => absurd h.1 (by simp [Task.abandon])
  | outside => exact hw

theorem Steps.queued {s : Store} {w : World R} (h : rules.Steps { store := s } w) :
    rules.Queued w.tasks := by
  induction h with
  | refl => exact .nil
  | tail _ hstep ih => exact hstep.move.queued ih

/-- What holds of tasks in the order in which they have been started holds of any task in front of
one in progress that excludes it. -/
theorem Queued.before {tasks : List (Task R)} (h : rules.Queued tasks) {P : Task R → Task R → Prop}
    (hP : tasks.Pairwise P) {t t' : Task R} (ht : t ∈ tasks) (hprogress : t.InProgress)
    (ht' : t' ∈ tasks) (hexcludes : rules.excludes t.job t'.job) : t' = t ∨ P t' t := by
  induction tasks with
  | nil => cases ht
  | cons first rest ih =>
    obtain ⟨hfirst, hrest⟩ := List.pairwise_cons.1 h
    obtain ⟨hPfirst, hPrest⟩ := List.pairwise_cons.1 hP
    rcases List.mem_cons.1 ht with rfl | hmem <;> rcases List.mem_cons.1 ht' with rfl | hmem'
    · exact .inl rfl
    · exact absurd hexcludes (hfirst t' hmem' hprogress)
    · exact .inr (hPfirst t hmem)
    · exact ih hrest hPrest hmem hmem'

theorem Steps.exclusive {s : Store} {w : World R} (h : rules.Steps { store := s } w) :
    rules.Exclusive w.tasks := h.queued.exclusive

theorem Reachable.exclusive {w : World R} (h : rules.Reachable w) : rules.Exclusive w.tasks :=
  h.steps.exclusive

/-! ## Induction over worlds -/

/-- What has to be shown so that a property `Q` of each task beside the store, and a property
`I` of the store, hold in every world. `E` says what a task of a job does to the store. -/
structure Upheld (rules : Rules R) (I : Store → Prop) (E : R.Job → Store → Store → Prop)
    (Q : Task R → Store → Prop) : Prop where
  empty : I {}
  start : ∀ {job s}, I s → s.Sound → rules.during s → Q (.start job) s
  /-- A task goes on. -/
  answer : ∀ {t : Task R} {r next reply s s'}, I s → s.Sound → rules.during s → Q t s →
    t.abandoned = false → t.rest = .ask r next → r.Answered s reply s' → rules.during s' →
    I s' ∧ E t.job s s' ∧ Q (t.answered r next reply s s') s'
  /-- A task goes on beside another one. -/
  beside : ∀ {job} {t : Task R} {s s'}, s.Follows s' → s'.Sound → rules.during s' → I s' → Q t s →
    E job s s' →
    (t.InProgress → ¬ rules.excludes job t.job ∨ ¬ rules.excludes t.job job) → Q t s'
  abandon : ∀ {t s}, Q t s → Q t.abandon s
  outside : ∀ {now r s}, rules.outside r → I s → s.Sound → rules.during s →
    rules.during (s.serve now r).2 →
    I (s.serve now r).2 ∧ ∀ {t}, Q t s → Q t (s.serve now r).2

/-- What a task does to the store in a step is what its job is said to do. -/
inductive Effect (rules : Rules R) (E : R.Job → Store → Store → Prop) (s : Store) :
    Store → Prop where
  | none : Effect rules E s s
  | own {job : R.Job} {s' : Store} : E job s s' → Effect rules E s s'
  | outside (now : Instant) {r : StoreRequest} : rules.outside r →
    Effect rules E s (s.serve now r).2

namespace Upheld

variable {I : Store → Prop} {E : R.Job → Store → Store → Prop} {Q : Task R → Store → Prop}

theorem move (h : rules.Upheld I E Q) {w w' : World R} (hmove : rules.Move w w')
    (hs : w.store.Sound) (hex : rules.Exclusive w.tasks) (hbefore : rules.during w.store)
    (hafter : rules.during w'.store) (hI : I w.store) (hQ : ∀ t ∈ w.tasks, Q t w.store) :
    (I w'.store ∧ ∀ t ∈ w'.tasks, Q t w'.store) ∧ Effect rules E w.store w'.store := by
  have hfollows := hmove.edits.follows
  have hs' := hs.edits hmove.edits
  cases hmove with
  | start job hfree =>
    refine ⟨⟨hI, fun t ht => ?_⟩, .none⟩
    rcases List.mem_append.1 ht with ht | ht
    · exact hQ t ht
    · cases List.mem_singleton.1 ht
      exact h.start hI hs hbefore
  | @answer front back t r next reply s htasks hkept hrest hanswered =>
    rw [htasks] at hQ hex
    have hmem : t ∈ front ++ t :: back := List.mem_append_right _ List.mem_cons_self
    have hprogress : t.InProgress := ⟨hkept, by rw [hrest]; rfl⟩
    obtain ⟨hI', hE, hown⟩ :=
      h.answer hI hs hbefore (hQ t hmem) hkept hrest hanswered hafter
    refine ⟨⟨hI', fun t' ht' => ?_⟩, .own hE⟩
    obtain ⟨-, hback, hcross⟩ := List.pairwise_append.1 hex
    rcases List.mem_append.1 ht' with ht' | ht'
    · refine h.beside hfollows hs' hafter hI' (hQ t' (List.mem_append_left _ ht')) hE ?_
      exact fun h' => .inr (hcross t' ht' t List.mem_cons_self h' hprogress)
    · rcases List.mem_cons.1 ht' with rfl | ht'
      · exact hown
      · refine h.beside hfollows hs' hafter hI'
          (hQ t' (List.mem_append_right _ (List.mem_cons_of_mem _ ht'))) hE ?_
        exact fun h' => .inl ((List.pairwise_cons.1 hback).1 t' ht' hprogress h')
  | @abandon front back t htasks =>
    rw [htasks] at hQ
    refine ⟨⟨hI, fun t' ht' => ?_⟩, .none⟩
    rcases List.mem_append.1 ht' with ht' | ht'
    · exact hQ t' (List.mem_append_left _ ht')
    · rcases List.mem_cons.1 ht' with rfl | ht'
      · exact h.abandon (hQ t (List.mem_append_right _ List.mem_cons_self))
      · exact hQ t' (List.mem_append_right _ (List.mem_cons_of_mem _ ht'))
  | outside now r hr =>
    obtain ⟨hI', hkeep⟩ := h.outside hr hI hs hbefore hafter
    exact ⟨⟨hI', fun t ht => hkeep (hQ t ht)⟩, .outside now hr⟩

/-- What is upheld holds in every world. -/
theorem holds (h : rules.Upheld I E Q) {w : World R} (hw : rules.Reachable w) :
    I w.store ∧ ∀ t ∈ w.tasks, Q t w.store := by
  refine hw.induct (P := fun w => I w.store ∧ ∀ t ∈ w.tasks, Q t w.store)
    (fun _ => ⟨h.empty, fun t ht => by cases ht⟩) fun hw ih hstep => ?_
  exact (h.move hstep.move hw.sound hw.exclusive hw.during_store hstep.during ih.1 ih.2).1

/-- Every step does to the store what some job is said to do. -/
theorem effect (h : rules.Upheld I E Q) {w w' : World R} (hw : rules.Reachable w)
    (hstep : rules.Step w w') : Effect rules E w.store w'.store := by
  obtain ⟨hI, hQ⟩ := h.holds hw
  exact (h.move hstep.move hw.sound hw.exclusive hw.during_store hstep.during hI hQ).2

end Upheld
end Rules
end CampaignControl
