import CampaignControl.Proofs.Concurrency.World

/-!
# Scripts

A script says turn by turn what happens in a world: which job is started, which task has its next
request answered, and what is requested from outside. It is played by computation (`Rules.play`)
where the rules are decidable, and what has been played is a run (`Rules.steps_of_play`).
-/

namespace CampaignControl

universe u

/-- The answer to a request. A request to the store is served at a time and behind some faults, and
the repositories to be discovered are given. -/
def Request.serve (now : Instant) (faults : Faults) (repositories : List String) :
    (r : Request) → Store → r.Reply × Store
  | .store r, s =>
    let (reply, _, s') := Faults.serve now r (faults, s)
    (reply, s')
  | .discover _, s => (.ok repositories, s)
  | .correlate, s => (.issued 0, s)
  | .publish _, s | .measure _, s => ((), s)

theorem Request.serve_answered (now : Instant) (faults : Faults) (repositories : List String)
    (r : Request) (s : Store) :
    r.Answered s (r.serve now faults repositories s).1 (r.serve now faults repositories s).2 := by
  cases r with
  | store r => exact ⟨now, faults, rfl, rfl⟩
  | discover | correlate | publish | measure => exact rfl

/-- What happens next in a world. -/
inductive Turn (R : Repertoire.{u}) where
  | start (job : R.Job)
  /-- The next request of the task in this position is answered, if it has one. -/
  | answer (index : Nat) (now : Instant) (faults : Faults) (repositories : List String)
  | outside (now : Instant) (r : StoreRequest)

variable {R : Repertoire.{u}}

instance (t : Task R) : Decidable t.InProgress :=
  inferInstanceAs (Decidable (t.abandoned = false ∧ t.rest.isDone = false))

namespace Rules

variable (rules : Rules R) [DecidableRel rules.excludes] [DecidablePred rules.outside]
  [DecidablePred rules.during]

/-- The world after a turn, unless the turn is against the rules. -/
def take (w : World R) : Turn R → Option (World R)
  | .start job =>
    if ∀ t ∈ w.tasks, t.InProgress → ¬ rules.excludes t.job job then
      some { w with tasks := w.tasks ++ [.start job] }
    else none
  | .answer index now faults repositories =>
    match w.tasks.drop index with
    | [] => none
    | t :: back =>
      if t.abandoned then none
      else
        match t.rest with
        | .done _ => some w
        | .ask r next =>
          let (reply, s) := r.serve now faults repositories w.store
          some { store := s
                 tasks := w.tasks.take index ++ t.answered r next reply w.store s :: back }
  | .outside now r =>
    if rules.outside r then some { w with store := (w.store.serve now r).2 } else none

/-- The world after a script, unless some turn of it is against the rules. -/
def play (w : World R) : List (Turn R) → Option (World R)
  | [] => some w
  | turn :: rest =>
    match rules.take w turn with
    | none => none
    | some w' => if rules.during w'.store then play w' rest else none

variable {rules} {w w' : World R}

omit [DecidablePred rules.during] in
theorem move_of_take {turn : Turn R} (h : rules.take w turn = some w') :
    w' = w ∨ rules.Move w w' := by
  cases turn with
  | start job =>
    simp only [take] at h
    split at h
    · next hfree =>
      cases h
      exact .inr (.start job hfree)
    · cases h
  | answer index now faults repositories =>
    simp only [take] at h
    split at h
    · cases h
    · next t back hdrop =>
      have htasks : w.tasks = w.tasks.take index ++ t :: back := by
        rw [← hdrop, List.take_append_drop]
      split at h
      · cases h
      · next hkept =>
        split at h
        · cases h
          exact .inl rfl
        · next r next hrest =>
          cases h
          exact .inr (.answer htasks (Bool.not_eq_true _ ▸ hkept) hrest
            (r.serve_answered now faults repositories w.store))
  | outside now r =>
    simp only [take] at h
    split at h
    · next hr =>
      cases h
      exact .inr (.outside now r hr)
    · cases h

theorem steps_of_play {script : List (Turn R)} (h : rules.play w script = some w') :
    rules.Steps w w' := by
  induction script generalizing w with
  | nil => cases h; exact .refl
  | cons turn rest ih =>
    simp only [play] at h
    split at h
    · cases h
    · next between htake =>
      split at h
      · next hduring =>
        rcases move_of_take htake with rfl | hmove
        · exact ih h
        · exact .head ⟨hmove, hduring⟩ (ih h)
      · cases h

/-- Where a script leads to a world with a property, so does a run. -/
theorem exists_of_play {script : List (Turn R)} {p : World R → Bool}
    (h : (rules.play w script).any p) : ∃ w', rules.Steps w w' ∧ p w' := by
  obtain ⟨w', hplay, hp⟩ := Option.any_eq_true _ _ |>.1 h
  exact ⟨w', steps_of_play hplay, hp⟩

end Rules
end CampaignControl
