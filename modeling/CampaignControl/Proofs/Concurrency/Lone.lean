import CampaignControl.Proofs.Concurrency.Ensures
import CampaignControl.Rehearsal.Stage

/-!
# Programs that are alone

A program that has been run to its end with nobody else at work on the store (`Program.Lone`), with
whatever answers and faults. What it ensures beside nobody has come about (`Program.Ensures.lone`).
This is how a program runs on a stage without a script (`Stage.lone`), and how a task comes to its
end in a world when nothing else happens (`Rules.steps_lone`).
-/

namespace CampaignControl

universe u

/-! ## Alone -/

namespace Program

variable {ok : List Exchange → Request → Prop} {α : Type} {p : Program α} {a : α}
  {log past : List Exchange} {s s' : Store}

/-- A program has come to its end with nobody else at work on the store. -/
inductive Lone : Program α → Store → α → List Exchange → Store → Prop where
  | done (a : α) (s : Store) : Lone (.done a) s a [] s
  | ask {r : Request} {next : r.Reply → Program α} {reply : r.Reply} {s s₁ s' : Store} {a : α}
    {log : List Exchange} : r.Answered s reply s₁ → Lone (next reply) s₁ a log s' →
    Lone (.ask r next) s a ({ request := r, reply, before := s, after := s₁ } :: log) s'

/-- A program that is alone requests what it is allowed to, and comes to what it ensures. -/
theorem Ensures.lone {post : α → List Exchange → Store → Prop}
    (h : p.Ensures .none ok post past s) (hlone : p.Lone s a log s') (hs : s.Sound) :
    post a (past ++ log) s' ∧
      ∀ front e back, log = front ++ e :: back → ok (past ++ front) e.request := by
  induction hlone generalizing past with
  | done a s =>
    rw [List.append_nil]
    exact ⟨h, fun front e back heq => by cases front <;> cases heq⟩
  | ask hanswered _ ih =>
    obtain ⟨hok, hnext⟩ := h _ rfl hs
    have hs₁ := hs.edits hanswered.edits
    obtain ⟨hpost, hlog⟩ := ih (hnext _ _ hs₁ hanswered) hs₁
    rw [List.append_assoc] at hpost
    refine ⟨hpost, fun front e back heq => ?_⟩
    cases front with
    | nil =>
      cases heq
      rwa [List.append_nil]
    | cons x front =>
      cases heq
      have hnext := hlog front e back rfl
      rwa [List.append_assoc] at hnext

namespace Lone

theorem of_done {b : α} (h : (Program.done b).Lone s a log s') : a = b ∧ log = [] ∧ s' = s := by
  cases h
  exact ⟨rfl, rfl, rfl⟩

theorem of_bind {β : Type} {p : Program β} {f : β → Program α} (h : (p >>= f).Lone s a log s') :
    ∃ b log₁ s₁ log₂, p.Lone s b log₁ s₁ ∧ (f b).Lone s₁ a log₂ s' ∧ log = log₁ ++ log₂ := by
  replace h : (p.bind f).Lone s a log s' := h
  induction p generalizing s log with
  | done b => exact ⟨b, [], s, log, .done b s, h, rfl⟩
  | ask r next ih =>
    cases h with
    | ask hanswered hnext =>
      obtain ⟨b, log₁, s₁, log₂, hp, hf, rfl⟩ := ih _ hnext
      exact ⟨b, _ :: log₁, s₁, log₂, .ask hanswered hp, hf, rfl⟩

theorem of_request {r : Request} {reply : r.Reply}
    (h : (Program.request r).Lone s reply log s') :
    r.Answered s reply s' ∧ log = [{ request := r, reply, before := s, after := s' }] := by
  cases h with
  | ask hanswered hdone =>
    obtain ⟨rfl, rfl, rfl⟩ := hdone.of_done
    exact ⟨hanswered, rfl⟩

theorem reached (h : p.Lone s a log s') (hs : s.Reached) : s'.Reached := by
  induction h with
  | done => exact hs
  | ask hanswered _ ih => exact ih (hanswered.reached hs)

/-- With the store out of order a program comes to an end, and leaves the store as it is. -/
theorem exists_of_outage (p : Program α) (s : Store) : ∃ a log, p.Lone s a log s := by
  induction p with
  | done a => exact ⟨a, [], .done a s⟩
  | ask r next ih =>
    have hanswered : ∃ reply, r.Answered s reply s := by
      cases r with
      | store r =>
        refine ⟨.error Faults.outageError, .epoch, { outage := true }, ?_⟩
        cases r <;> exact ⟨rfl, rfl⟩
      | discover => exact ⟨.ok [], rfl⟩
      | correlate => exact ⟨default, rfl⟩
      | publish | measure => exact ⟨(), rfl⟩
    obtain ⟨reply, hanswered⟩ := hanswered
    obtain ⟨a, log, hnext⟩ := ih reply
    exact ⟨a, _, .ask hanswered hnext⟩

/-- The store may be out of order from any request on. -/
theorem exists_of_mem (h : p.Lone s a log s') {e : Exchange} (he : e ∈ log) :
    ∃ a log, p.Lone s a log e.before := by
  induction h with
  | done => cases he
  | @ask r next reply s s₁ s' a log hanswered _ ih =>
    rcases List.mem_cons.1 he with rfl | he
    · exact exists_of_outage (.ask r next) s
    · obtain ⟨a, log, hnext⟩ := ih he
      exact ⟨a, _, .ask hanswered hnext⟩

end Lone
end Program

/-! ## Passes alone -/

/-- Only the store has been asked. -/
def StoreOnly (log : List Exchange) : Prop := ∀ e ∈ log, ∃ r, e.request = .store r

namespace Pass

variable {α β γ δ : Type} {log : List Exchange} {s s' : Store}

theorem lone_bind {p : Pass γ} {f : γ → Pass δ} {result : Except Error δ}
    (h : (p >>= f).run.Lone s result log s') :
    (∃ e, result = .error e ∧ p.run.Lone s (.error e) log s') ∨
      ∃ a log₁ s₁ log₂, p.run.Lone s (.ok a) log₁ s₁ ∧ (f a).run.Lone s₁ result log₂ s' ∧
        log = log₁ ++ log₂ := by
  rw [ExceptT.run_bind] at h
  obtain ⟨outcome, log₁, s₁, log₂, hp, hrest, rfl⟩ := h.of_bind
  cases outcome with
  | error e =>
    obtain ⟨rfl, rfl, rfl⟩ := Program.Lone.of_done hrest
    exact .inl ⟨e, rfl, by rwa [List.append_nil]⟩
  | ok a => exact .inr ⟨a, log₁, s₁, log₂, hp, hrest, rfl⟩

/-- A pass that succeeds has succeeded up to every point. -/
theorem lone_bind_ok {p : Pass γ} {f : γ → Pass δ} {b : δ}
    (h : (p >>= f).run.Lone s (.ok b) log s') :
    ∃ a log₁ s₁ log₂, p.run.Lone s (.ok a) log₁ s₁ ∧ (f a).run.Lone s₁ (.ok b) log₂ s' ∧
      log = log₁ ++ log₂ :=
  (lone_bind h).resolve_left fun ⟨_, he, _⟩ => by cases he

theorem lone_lift {p : Program γ} {result : Except Error γ}
    (h : (Pass.lift p).run.Lone s result log s') : ∃ a, result = .ok a ∧ p.Lone s a log s' := by
  rw [Pass.lift, ExceptT.run_lift, map_eq_pure_bind] at h
  obtain ⟨a, log₁, s₁, log₂, hp, hrest, rfl⟩ := h.of_bind
  obtain ⟨rfl, rfl, rfl⟩ := Program.Lone.of_done hrest
  exact ⟨a, rfl, by rwa [List.append_nil]⟩

/-- A program does not stop a pass. -/
theorem lone_bind_lift {p : Program γ} {f : γ → Pass δ} {result : Except Error δ}
    (h : (Pass.lift p >>= f).run.Lone s result log s') :
    ∃ a log₁ s₁ log₂, p.Lone s a log₁ s₁ ∧ (f a).run.Lone s₁ result log₂ s' ∧
      log = log₁ ++ log₂ := by
  rcases lone_bind h with ⟨e, -, hp⟩ | ⟨a, log₁, s₁, log₂, hp, hrest, rfl⟩
  · obtain ⟨_, heq, -⟩ := lone_lift hp
    cases heq
  · obtain ⟨_, heq, hp⟩ := lone_lift hp
    cases heq
    exact ⟨a, log₁, s₁, log₂, hp, hrest, rfl⟩

theorem lone_bind_request {r : Request} {f : r.Reply → Pass δ} {result : Except Error δ}
    (h : (Pass.lift (.request r) >>= f).run.Lone s result log s') :
    ∃ reply s₁ rest, r.Answered s reply s₁ ∧ (f reply).run.Lone s₁ result rest s' ∧
      log = { request := r, reply, before := s, after := s₁ } :: rest := by
  obtain ⟨reply, log₁, s₁, rest, hask, hrest, rfl⟩ := lone_bind_lift h
  obtain ⟨hanswered, rfl⟩ := hask.of_request
  exact ⟨reply, s₁, rest, hanswered, hrest, rfl⟩

theorem lone_bind_publish {e : Event} {f : Unit → Pass δ} {result : Except Error δ}
    (h : (Pass.publish e >>= f).run.Lone s result log s') :
    ∃ rest, (f ()).run.Lone s result rest s' ∧ log = .publication e s :: rest := by
  obtain ⟨_, s₁, rest, hanswered, hrest, rfl⟩ := lone_bind_request h
  cases (show s₁ = s from hanswered)
  exact ⟨rest, hrest, rfl⟩

theorem lone_bind_measure {m : Measurement} {f : Unit → Pass δ} {result : Except Error δ}
    (h : (Pass.measure m >>= f).run.Lone s result log s') :
    ∃ rest, (f ()).run.Lone s result rest s' ∧ log = .measurement m s :: rest := by
  obtain ⟨_, s₁, rest, hanswered, hrest, rfl⟩ := lone_bind_request h
  cases (show s₁ = s from hanswered)
  exact ⟨rest, hrest, rfl⟩

theorem lone_publish {e : Event} {result : Except Error Unit}
    (h : (Pass.publish e).run.Lone s result log s') :
    result = .ok () ∧ log = [.publication e s] ∧ s' = s := by
  obtain ⟨_, rfl, hrequest⟩ := lone_lift h
  obtain ⟨hanswered, rfl⟩ := hrequest.of_request
  cases (show s' = s from hanswered)
  exact ⟨rfl, rfl, rfl⟩

/-- What a pass that only asks the store ensures beside nobody has come about. -/
theorem Ensures.lone {p : Pass γ} {fail : List Exchange → Store → Prop}
    {post : γ → List Exchange → Store → Prop} {result : Except Error γ}
    (h : p.Ensures .none (fun _ r => ∃ q, r = .store q) fail post [] s)
    (hlone : p.run.Lone s result log s') (hs : s.Sound) :
    StoreOnly log ∧ Ends fail post result log s' := by
  obtain ⟨hends, hok⟩ := Program.Ensures.lone h hlone hs
  refine ⟨fun e he => ?_, hends⟩
  obtain ⟨front, back, hlog⟩ := List.append_of_mem he
  exact hok front e back hlog

section resource

variable [Resource α] {key : Key}

theorem lone_find? {result : Except Error (Option α)} (hs : s.Sound)
    (h : (Pass.find? key : Pass (Option α)).run.Lone s result log s') :
    StoreOnly log ∧ s' = s ∧ ((∃ e, result = .error e) ∨
      result = .ok none ∧ s.find? { kind := Resource.kind α, key } = none ∨
      ∃ object a, s.find? { kind := Resource.kind α, key } = some object ∧
        Resource.decode object = .ok a ∧ result = .ok (some a)) := by
  have hensures : (Pass.find? key : Pass (Option α)).Ensures .none (fun _ r => ∃ q, r = .store q)
      (fun _ s' => s' = s) (fun found _ s' => s' = s ∧
        (found = none ∧ s.find? { kind := Resource.kind α, key } = none ∨
          ∃ object a, s.find? { kind := Resource.kind α, key } = some object ∧
            Resource.decode object = .ok a ∧ found = some a)) [] s := by
    apply Ensures.find? ⟨_, rfl⟩
    · rintro past' s₁ rfl -
      rfl
    · rintro s₁ object a rfl - found hdecode
      exact ⟨rfl, .inr ⟨object, a, found, hdecode, rfl⟩⟩
    · rintro past' s₁ rfl - - hnone
      exact ⟨rfl, .inl ⟨rfl, hnone⟩⟩
  obtain ⟨honly, hends⟩ := hensures.lone h hs
  cases result with
  | error e => exact ⟨honly, hends, .inl ⟨e, rfl⟩⟩
  | ok found =>
    obtain ⟨hsame, hcases⟩ := hends
    refine ⟨honly, hsame, .inr ?_⟩
    rcases hcases with ⟨rfl, hnone⟩ | ⟨object, a, hobject, hdecode, rfl⟩
    · exact .inl ⟨rfl, hnone⟩
    · exact .inr ⟨object, a, hobject, hdecode, rfl⟩

theorem lone_list {filter : Filter} {result : Except Error (List α)} (hs : s.Sound)
    (h : (Pass.list filter : Pass (List α)).run.Lone s result log s') :
    StoreOnly log ∧ s' = s ∧ ∀ items, result = .ok items →
      (s.list (Resource.kind α) filter).mapM Resource.decode = .ok items := by
  have hensures : (Pass.list filter : Pass (List α)).Ensures .none (fun _ r => ∃ q, r = .store q)
      (fun _ s' => s' = s) (fun items _ s' => s' = s ∧
        (s.list (Resource.kind α) filter).mapM Resource.decode = .ok items) [] s := by
    apply Ensures.list ⟨_, rfl⟩
    · rintro past' s₁ rfl -
      rfl
    · rintro past' s₁ items rfl - - hitems
      exact ⟨rfl, hitems⟩
  obtain ⟨honly, hends⟩ := hensures.lone h hs
  cases result with
  | error e => exact ⟨honly, hends, nofun⟩
  | ok items =>
    refine ⟨honly, hends.1, fun items' heq => ?_⟩
    cases heq
    exact hends.2

/-- An object is created, or it is not and perhaps is there already. -/
theorem lone_bind_create [LawfulResource α] {a : α} {f : Except StoreError α → Pass δ}
    {result : Except Error δ} (hs : s.Reached)
    (h : (Pass.lift (Pass.create a) >>= f).run.Lone s result log s') :
    ∃ front rest, StoreOnly front ∧ log = front ++ rest ∧
      ((∃ stored now, s.find? (Resource.slot a) = none ∧
          (s.withNew now (Resource.slot a) (Resource.encode a)).Reached ∧
          (f (.ok stored)).run.Lone (s.withNew now (Resource.slot a) (Resource.encode a)) result
            rest s') ∨
        ∃ e, (e.isAlreadyExists → s.find? (Resource.slot a) ≠ none) ∧
          (f (.error e)).run.Lone s result rest s') := by
  have hensures : (Pass.lift (Pass.create a)).Ensures .none (fun _ r => ∃ q, r = .store q)
      (fun _ _ => False) (fun reply _ s' =>
        (∃ stored now, reply = .ok stored ∧ s.find? (Resource.slot a) = none ∧
            s' = s.withNew now (Resource.slot a) (Resource.encode a)) ∨
          ∃ e, reply = .error e ∧ s' = s ∧
            (e.isAlreadyExists → s.find? (Resource.slot a) ≠ none)) [] s := by
    apply Ensures.create ⟨_, rfl⟩
    · rintro s₁ now rfl - - hnone
      exact .inl ⟨_, now, rfl, hnone, rfl⟩
    · rintro past' s₁ e rfl - - hexists
      exact .inr ⟨e, rfl, rfl, hexists⟩
  rcases lone_bind h with ⟨e, rfl, hcreate⟩ | ⟨reply, front, s₁, rest, hcreate, hrest, rfl⟩
  · exact (hensures.lone hcreate hs.intact.toSound).2.elim
  obtain ⟨honly, hends⟩ := hensures.lone hcreate hs.intact.toSound
  refine ⟨front, rest, honly, rfl, ?_⟩
  rcases hends with ⟨stored, now, rfl, hnone, rfl⟩ | ⟨e, rfl, rfl, hexists⟩
  · exact .inl ⟨stored, now, hnone, hcreate.reached hs, hrest⟩
  · exact .inr ⟨e, hexists, hrest⟩

/-- What a change of the object at a key comes to, if nobody else changes it. -/
inductive Modifies (key : Key) (change : α → α × Option β) (s : Store) :
    Except Error (Option (α × Option β)) → Store → Prop where
  | failed (e : Error) : Modifies key change s (.error e) s
  | absent : s.find? { kind := Resource.kind α, key } = none → Modifies key change s (.ok none) s
  | same {object : Object} {current same : α} :
    s.find? { kind := Resource.kind α, key } = some object → Resource.decode object = .ok current →
    change current = (same, none) → Modifies key change s (.ok (some (same, none))) s
  | written {object : Object} {current changed : α} {note : β} (stored : α) :
    s.find? { kind := Resource.kind α, key } = some object → Resource.decode object = .ok current →
    change current = (changed, some note) →
    Modifies key change s (.ok (some (stored, some note)))
      (s.withRevised { kind := Resource.kind α, key } object (Resource.encode changed))

/-- A change that fails has written nothing, however often it has been tried. -/
theorem lone_modify [LawfulResource α] {attempts : Nat} {change : α → α × Option β}
    {result : Except Error (Option (α × Option β))} (hs : s.Reached)
    (hmetadata : ∀ a, Resource.metadata (change a).1 = Resource.metadata a)
    (h : (Pass.modify key attempts change).run.Lone s result log s') :
    StoreOnly log ∧ Modifies key change s result s' := by
  have hensures : (Pass.modify key attempts change).Ensures .none (fun _ r => ∃ q, r = .store q)
      (fun _ s' => s' = s) (fun found _ s' => Modifies key change s (.ok found) s') [] s := by
    apply Ensures.modify (.of_metadata hmetadata)
    · exact fun _ => ⟨_, rfl⟩
    · exact fun _ _ _ _ _ => ⟨_, rfl⟩
    · rintro past' s₁ rfl -
      rfl
    · rintro past' s₁ rfl - - hnone
      exact .absent hnone
    · rintro past' s₁ object current same rfl - - found hdecode hchange
      exact .same found hdecode hchange
    · rintro past' s₁ s₂ object current changed note rfl - - - found hdecode hchange hanswered - -
      have hsame : Resource.metadata changed = object.metadata := by
        have hchanged := hmetadata current
        rw [hchange] at hchanged
        exact hchanged.trans (Resource.metadata_of_decode hdecode)
      have hkey : (Resource.encode changed).key = key :=
        (congrArg Metadata.key hsame).trans (hs.intact.toSound.key_eq found)
      -- what is being deleted is held, and so it is still there after the change
      have hheld : object.metadata.isDeleting →
          (Resource.encode changed).metadata.finalizers ≠ [] := fun hdel => by
          rw [show (Resource.encode changed).metadata = object.metadata from hsame]
          exact hs.intact.held _ _ found hdel
      rcases hanswered.store_cases with ⟨now, hserve⟩ | ⟨e, -, hreply, -⟩
      · have hupdate := Store.update_of_held now found hkey (congrArg Metadata.version hsame) hheld
        cases hserve.symm.trans hupdate
        exact .written _ found hdecode hchange
      · cases hreply
  obtain ⟨honly, hends⟩ := hensures.lone h hs.intact.toSound
  cases result with
  | error e =>
    cases (show s' = s from hends)
    exact ⟨honly, .failed e⟩
  | ok found => exact ⟨honly, hends⟩

end resource
end Pass

namespace Stage

/-- An answer without a script: what is made known comes behind what has been made known. -/
theorem answer_of_rules {stage after : Stage} {r : Request} {reply : r.Reply}
    (hrules : stage.rules = []) (h : Stage.answer Stage.serve r stage = (reply, after)) :
    after.rules = [] ∧ r.Answered stage.store reply after.store ∧ after.mute = stage.mute ∧
      (stage.mute = false → after.events = stage.events ++ r.event?.toList) := by
  cases r with
  | store r =>
    have hserve : stage.serveFaulty r = (reply, after) := (serve_of_rules hrules r).symm.trans h
    cases hserve
    exact ⟨hrules, ⟨stage.clock, stage.faults, rfl, rfl⟩, rfl, fun _ => (List.append_nil _).symm⟩
  | discover | correlate | measure =>
    cases h
    exact ⟨hrules, rfl, rfl, fun _ => (List.append_nil _).symm⟩
  | publish e =>
    cases h
    cases hmute : stage.mute <;> simp [hmute, hrules, Request.Answered, Request.event?]

/-- Whatever faults a stage has, a program that runs on it without a script is alone. -/
theorem lone {α : Type} (p : Program α) {stage : Stage} (hrules : stage.rules = []) :
    ∃ log, p.Lone stage.store (stage.run p).1 log (stage.run p).2.store ∧
      (stage.mute = false → (stage.run p).2.events = stage.events ++ published log) := by
  induction p generalizing stage with
  | done a => exact ⟨[], .done a stage.store, fun _ => (List.append_nil _).symm⟩
  | ask r next ih =>
    obtain ⟨hrules', hanswered, hmute, hevents⟩ := answer_of_rules hrules rfl
    obtain ⟨log, hlone, hpublished⟩ := ih _ hrules'
    refine ⟨_ :: log, .ask hanswered hlone, fun hloud => ?_⟩
    have hafter := hpublished (hmute.trans hloud)
    rw [hevents hloud, List.append_assoc] at hafter
    refine hafter.trans (congrArg (stage.events ++ ·) ?_)
    show r.event?.toList ++ published log = published (_ :: log)
    cases hevent : r.event? <;> simp [published, hevent]

end Stage

/-! ## In a world -/

namespace Rules

variable {R : Repertoire.{u}} {rules : Rules R} {s : Store}

/-- A task comes to its end as its program does alone. -/
theorem steps_lone {job : R.Job} {p : Program (R.Result job)} {a : R.Result job}
    {log past : List Exchange} {s' : Store} (hduring : ∀ s, rules.during s)
    (hlone : p.Lone s a log s') (front : List (Task R)) :
    rules.Steps { store := s, tasks := front ++ [⟨job, p, past, false⟩] }
      { store := s', tasks := front ++ [⟨job, .done a, past ++ log, false⟩] } := by
  induction hlone generalizing past with
  | done a s => rw [List.append_nil]
  | @ask r next reply s s₁ s' a log hanswered _ ih =>
    let t : Task R := ⟨job, .ask r next, past, false⟩
    have hstep : rules.Step { store := s, tasks := front ++ [t] }
        { store := s₁
          tasks := front ++ [t.answered r next reply s s₁] } :=
      ⟨.answer (t := t) rfl rfl rfl hanswered, hduring _⟩
    refine .head hstep ?_
    rw [List.append_cons past _ log]
    exact ih

end Rules
end CampaignControl
