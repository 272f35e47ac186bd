import CampaignControl.Proofs.Concurrency.History
import CampaignControl.Proofs.Concurrency.Milestones
import Mathlib.Data.List.Induction

/-!
# Programs at their end

Programs that have been run to their end side by side and without faults (`Rules.Completed`). A task
that is left alone comes to its end in any surroundings that answer like a world
(`Rules.exists_finish`), so programs can be completed one after another under any rules
(`Rules.exists_completed`), and what is done under strict rules may be done under lax ones
(`Rules.Steps.relax`).
-/

namespace CampaignControl

universe u

variable {R : Repertoire.{u}}

namespace Rules

variable {rules rules' : Rules R} {w w' : World R} {s : Store} {jobs : List R.Job}
  {repositories : List String}

/-! ## Stricter rules -/

theorem Move.relax (h : rules.Move w w')
    (hexcludes : ∀ job job', rules'.excludes job job' → rules.excludes job job')
    (houtside : ∀ r, rules.outside r → rules'.outside r) : rules'.Move w w' := by
  cases h with
  | start job hfree =>
    exact .start job fun t ht hprogress hex => hfree t ht hprogress (hexcludes _ _ hex)
  | answer htasks hkept hrest hanswered => exact .answer htasks hkept hrest hanswered
  | abandon htasks => exact .abandon htasks
  | outside now r hr => exact .outside now r (houtside r hr)

theorem Steps.relax (h : rules.Steps w w')
    (hexcludes : ∀ job job', rules'.excludes job job' → rules.excludes job job')
    (houtside : ∀ r, rules.outside r → rules'.outside r)
    (hduring : ∀ s, rules.during s → rules'.during s) : rules'.Steps w w' := by
  induction h with
  | refl => exact .refl
  | tail _ hstep ih =>
    exact ih.tail ⟨hstep.move.relax hexcludes houtside, hduring _ hstep.during⟩

/-! ## One after another -/

/-- Jobs one after another, and nothing else. -/
def inTurn (R : Repertoire.{u}) : Rules R where
  excludes _ _ := True
  outside _ := False

instance : DecidableRel (inTurn R).excludes := fun _ _ => .isTrue trivial

instance : DecidablePred (inTurn R).outside := fun _ => .isFalse id

instance : DecidablePred (inTurn R).during := fun _ => .isTrue trivial

theorem during_inTurn (R : Repertoire.{u}) (s : Store) : (inTurn R).during s := trivial

theorem Move.jobs_prefix (h : rules.Move w w') :
    w.tasks.map Task.job <+: w'.tasks.map Task.job := by
  have hreplace : ∀ {front back : List (Task R)} {t t' : Task R}, t'.job = t.job →
      w.tasks = front ++ t :: back →
      w.tasks.map Task.job <+: (front ++ t' :: back).map Task.job := by
    intro front back t t' hjob htasks
    have hjobs : w.tasks.map Task.job = (front ++ t' :: back).map Task.job := by
      rw [htasks, List.map_append, List.map_append, List.map_cons, List.map_cons, hjob]
    exact hjobs ▸ List.prefix_rfl
  cases h with
  | start => exact (List.prefix_append ..).map _
  | answer htasks | abandon htasks =>
    refine hreplace ?_ htasks
    rfl
  | outside => exact List.prefix_rfl

/-! ## To the end -/

/-- What has been answered without faults after a move has been so before. -/
theorem Move.isServed (h : rules.Move w w') (hserved : w'.IsServed repositories) :
    w.IsServed repositories := by
  intro t ht e he
  obtain ⟨t', ht', -, hpast⟩ := h.exists_past ht
  exact hserved t' ht' e (hpast.subset he)

section
variable (hduring : ∀ s, rules.during s)
include hduring

/-- All tasks may be abandoned. -/
theorem steps_abandon (w : World R) : rules.Steps w { w with tasks := w.tasks.map .abandon } := by
  suffices ∀ front back : List (Task R),
      rules.Steps { w with tasks := front ++ back } { w with tasks := front ++ back.map .abandon }
    from this [] w.tasks
  intro front back
  induction back generalizing front with
  | nil => exact .refl
  | cons t back ih =>
    have hrest := ih (front ++ [t.abandon])
    simp only [List.append_assoc, List.singleton_append] at hrest
    exact .head ⟨.abandon (t := t) rfl, hduring _⟩ hrest

/-- A task comes to its end if nothing else happens. -/
theorem exists_finish {σ : Type} (answer : (r : Request) → σ → r.Reply × σ) (store : σ → Store)
    {P : Exchange → Prop}
    (hanswer : ∀ (r : Request) a, r.Answered (store a) (answer r a).1 (store (answer r a).2))
    (hP : ∀ r a, P ⟨r, (answer r a).1, store a, store (answer r a).2⟩) (front : List (Task R))
    (t : Task R) (hkept : t.abandoned = false) (a : σ) :
    ∃ past : List Exchange, (∀ e ∈ past, P e) ∧
      rules.Steps { store := store a, tasks := front ++ [t] }
        { store := store (t.rest.run answer a).2
          tasks := front ++
            [{ t with rest := .done (t.rest.run answer a).1, past := t.past ++ past }] } := by
  obtain ⟨job, rest, before, abandoned⟩ := t
  cases hkept
  induction rest generalizing before a with
  | done result =>
    refine ⟨[], fun e he => absurd he List.not_mem_nil, ?_⟩
    simp only [List.append_nil]
    exact .refl
  | ask r next ih =>
    let e : Exchange := ⟨r, (answer r a).1, store a, store (answer r a).2⟩
    obtain ⟨later, hlater, hsteps⟩ := ih (answer r a).1 (answer r a).2 (before ++ [e])
    let t : Task R := ⟨job, .ask r next, before, false⟩
    have hstep : rules.Step { store := store a, tasks := front ++ [t] }
        { store := store (answer r a).2
          tasks := front ++ [⟨job, next (answer r a).1, before ++ [e], false⟩] } :=
      ⟨.answer (t := t) rfl rfl rfl (hanswer r a), hduring _⟩
    refine ⟨e :: later, List.forall_mem_cons.2 ⟨hP r a, hlater⟩, .head hstep ?_⟩
    rw [List.append_cons before e later]
    exact hsteps

end

/-- Jobs that have come to their ends without faults, started in this order and with nothing else
beside them. -/
structure Completed (rules : Rules R) (repositories : List String) (s : Store) (jobs : List R.Job)
    (w : World R) : Prop where
  steps : rules.Steps { store := s } w
  served : w.IsServed repositories
  jobs : w.tasks.map Task.job = jobs
  done : ∀ t ∈ w.tasks, t.rest.isDone

namespace Completed

theorem mem_jobs (h : rules.Completed repositories s jobs w) {t : Task R} (ht : t ∈ w.tasks) :
    t.job ∈ jobs := h.jobs ▸ List.mem_map_of_mem ht

theorem exists_task (h : rules.Completed repositories s jobs w) {job : R.Job} (hjob : job ∈ jobs) :
    ∃ t ∈ w.tasks, t.job = job := by
  rw [← h.jobs] at hjob
  exact List.mem_map.1 hjob

theorem relax (h : rules.Completed repositories s jobs w)
    (hexcludes : ∀ job job', rules'.excludes job job' → rules.excludes job job')
    (houtside : ∀ r, rules.outside r → rules'.outside r)
    (hduring : ∀ s, rules.during s → rules'.during s) :
    rules'.Completed repositories s jobs w :=
  { h with steps := h.steps.relax hexcludes houtside hduring }

end Completed

/-- What has been played to the end. -/
theorem completed_of_play [DecidableRel rules.excludes] [DecidablePred rules.outside]
    [DecidablePred rules.during] {script : List (Turn R)}
    (hscript : ∀ turn ∈ script, turn.IsServed repositories)
    (h : rules.play { store := s } script = some w) (hdone : ∀ t ∈ w.tasks, t.rest.isDone) :
    rules.Completed repositories s (w.tasks.map Task.job) w where
  steps := steps_of_play h
  served := served_of_play hscript (fun _ h => absurd h List.not_mem_nil) h
  jobs := rfl
  done := hdone

/-- One more job can be completed. -/
theorem Completed.exists_append (h : rules.Completed repositories s jobs w)
    (hduring : ∀ s, rules.during s) (job : R.Job) :
    ∃ w', rules.Completed repositories s (jobs ++ [job]) w' := by
  have hstart : rules.Step w { w with tasks := w.tasks ++ [.start job] } :=
    ⟨.start job fun t ht hprogress => absurd (h.done t ht) (by rw [hprogress.2]; decide),
      hduring _⟩
  obtain ⟨past, hpast, hfinish⟩ := exists_finish hduring (Request.serve .epoch {} repositories) id
    (Request.serve_answered .epoch {} repositories) (P := Exchange.IsServed repositories)
    (Request.serve_served .epoch repositories) w.tasks (.start job) rfl w.store
  refine ⟨_, h.steps.trans (.head hstart hfinish), ?_, ?_, ?_⟩
  · intro t ht
    rcases List.mem_append.1 ht with ht | ht
    · exact h.served t ht
    · cases List.mem_singleton.1 ht
      exact hpast
  · rw [List.map_append, h.jobs]
    rfl
  · intro t ht
    rcases List.mem_append.1 ht with ht | ht
    · exact h.done t ht
    · cases List.mem_singleton.1 ht
      rfl

/-- Any jobs can be completed, one after another. -/
theorem exists_completed (hduring : ∀ s, rules.during s) (repositories : List String) (s : Store)
    (jobs : List R.Job) : ∃ w, rules.Completed repositories s jobs w := by
  induction jobs using List.reverseRecOn with
  | nil =>
    exact ⟨{ store := s }, .refl, fun _ h => absurd h List.not_mem_nil, rfl,
      fun _ h => absurd h List.not_mem_nil⟩
  | append_singleton jobs job ih =>
    obtain ⟨w, hw⟩ := ih
    exact hw.exists_append hduring job

end Rules
end CampaignControl
