import CampaignControl.Proofs.Concurrency.Completion

/-!
# Programs on terms

A program that relies on what others leave alone between its requests, and leaves alone in turn what
they rely on (`Terms`). Where it keeps to its terms and nothing meets a fault, it comes to what it
would come to by itself: `Program.Settles` is about every answer that it can get, and the rules for
passes (`Pass.Settles`) take one request at a time.

A program that has the store to itself relies on everything and leaves nothing alone
(`Terms.alone`). What it settles is what has come of it when it has been run to its end
(`Rules.Completed.settled`).
-/

namespace CampaignControl

universe u

/-! ## Events -/

/-- An event, from whatever pass. -/
def Event.uncorrelated (e : Event) : Event := { e with correlation := .nil }

/-- What is made known with a request. -/
def Request.events : Request → List Event
  | .publish e => [e.uncorrelated]
  | .store _ | .discover _ | .correlate | .measure _ => []

/-- What a task has made known. -/
def Task.events {R : Repertoire.{u}} (t : Task R) : List Event :=
  t.past.flatMap fun e => e.request.events

/-! ## Terms -/

/-- What a program relies on while others are at work, and what it leaves alone for them. -/
structure Terms where
  /-- The repositories to be discovered. -/
  repositories : List String := []
  /-- What the store may have become between two requests. -/
  rely : Store → Store → Prop
  /-- What is given of the store after each request. -/
  given : Store → Prop := fun _ => True
  /-- What a request may do to the store. -/
  leaves : Store → Store → Prop := fun _ _ => True
  trans : ∀ {s s' s''}, rely s s' → rely s' s'' → rely s s''
  self : ∀ {s s'}, rely s s' → rely s' s'
  idle : ∀ s, leaves s s

/-- The terms of a program that has the store to itself. -/
def Terms.alone (repositories : List String) : Terms where
  repositories
  rely s s' := s' = s
  trans h h' := h'.trans h
  self _ := rfl
  idle _ := trivial

/-! ## Programs -/

namespace Program

variable {α β : Type} {g : Terms} {log : List Event} {s s' : Store}

/-- A program, served without faults, keeps to its terms, and `post` holds of its value, of what it
has made known and of every store from then on. -/
def Settles (g : Terms) (post : α → List Event → Store → Prop) :
    Program α → List Event → Store → Prop
  | .done a, log, s => ∀ s', g.rely s s' → post a log s'
  | .ask r next, log, s => ∀ (s₁ s₂ : Store) (reply : r.Reply), g.rely s s₁ →
    r.Served g.repositories s₁ reply s₂ → g.given s₂ →
    g.leaves s₁ s₂ ∧ (next reply).Settles g post (log ++ r.events) s₂

namespace Settles

variable {post post' : α → List Event → Store → Prop}

theorem later {p : Program α} (h : p.Settles g post log s) (hlater : g.rely s s') :
    p.Settles g post log s' := by
  cases p with
  | done a => exact fun s₁ h₁ => h s₁ (g.trans hlater h₁)
  | ask r next => exact fun s₁ s₂ reply h₁ => h s₁ s₂ reply (g.trans hlater h₁)

/-- What holds at the end holds from then on. -/
theorem mono {p : Program α} (h : p.Settles g post log s)
    (hpost : ∀ a log s, g.rely s s → (∀ s', g.rely s s' → post a log s') →
      post' a log s) : p.Settles g post' log s := by
  induction p generalizing log s with
  | done a =>
    intro s' hlater
    exact hpost a log s' (g.self hlater) fun s'' hlater' =>
      h s'' (g.trans hlater hlater')
  | ask r next ih =>
    intro s₁ s₂ reply hlater hserved hgiven
    obtain ⟨hleaves, hnext⟩ := h s₁ s₂ reply hlater hserved hgiven
    exact ⟨hleaves, ih reply hnext⟩

/-- A program may begin at any time. -/
theorem of_later {p : Program α}
    (h : ∀ s', g.rely s s' → p.Settles g post log s') :
    p.Settles g post log s := by
  cases p with
  | done a =>
    intro s' hlater
    exact h s' hlater s' (g.self hlater)
  | ask r next =>
    intro s₁ s₂ reply hlater
    exact h s₁ hlater s₁ s₂ reply (g.self hlater)

theorem bind {post : β → List Event → Store → Prop} {p : Program α} {f : α → Program β}
    (h : p.Settles g (fun a log s => (f a).Settles g post log s) log s) :
    (p >>= f).Settles g post log s := by
  show (p.bind f).Settles g post log s
  induction p generalizing log s with
  | done a => exact of_later h
  | ask r next ih =>
    intro s₁ s₂ reply hlater hserved hgiven
    obtain ⟨hleaves, hnext⟩ := h s₁ s₂ reply hlater hserved hgiven
    exact ⟨hleaves, ih reply hnext⟩

/-- A request to something else than the store. -/
theorem request {r : Request} {post : r.Reply → List Event → Store → Prop}
    (hr : ∀ {s reply s'}, r.Served g.repositories s reply s' → s' = s)
    (h : ∀ {s₁ : Store} (reply : r.Reply), g.rely s s₁ → post reply (log ++ r.events) s₁) :
    (Program.request r).Settles g post log s := by
  intro s₁ s₂ reply hlater hserved _
  cases hr hserved
  exact ⟨g.idle _, fun s' hlater' => h reply (g.trans hlater hlater')⟩

end Settles
end Program

/-! ## Passes -/

namespace Pass

variable {α β γ : Type} {g : Terms} {log : List Event} {s : Store}

/-- A pass keeps to its terms, comes to a result and not to an error, and `post` holds of it. -/
def Settles (g : Terms) (post : γ → List Event → Store → Prop) (p : Pass γ)
    (log : List Event) (s : Store) : Prop :=
  Program.Settles g (fun result log s => ∃ a, result = .ok a ∧ post a log s) p.run log s

namespace Settles

theorem mono {post post' : γ → List Event → Store → Prop} {p : Pass γ}
    (h : p.Settles g post log s)
    (hpost : ∀ a log s, g.rely s s → post a log s → post' a log s) :
    p.Settles g post' log s := by
  refine Program.Settles.mono h fun result log s hself hresult => ?_
  obtain ⟨a, rfl, ha⟩ := hresult s hself
  exact ⟨a, rfl, hpost a log s hself ha⟩

theorem pure {post : γ → List Event → Store → Prop} {a : γ}
    (h : ∀ {s₁ : Store}, g.rely s s₁ → post a log s₁) :
    (Pure.pure a : Pass γ).Settles g post log s := fun _ hlater => ⟨a, rfl, h hlater⟩

theorem bind {δ : Type} {post : δ → List Event → Store → Prop} {p : Pass γ} {f : γ → Pass δ}
    (h : p.Settles g (fun a log s => (f a).Settles g post log s) log s) :
    (p >>= f).Settles g post log s := by
  show Program.Settles g _ (p >>= f).run log s
  rw [ExceptT.run_bind]
  refine Program.Settles.bind (Program.Settles.mono h fun result log s hself hresult => ?_)
  obtain ⟨a, rfl, ha⟩ := hresult s hself
  exact ha

theorem lift {post : γ → List Event → Store → Prop} {p : Program γ}
    (h : p.Settles g post log s) : (Pass.lift p).Settles g post log s := by
  show Program.Settles g _ (Pass.lift p).run log s
  rw [Pass.lift, ExceptT.run_lift, map_eq_pure_bind]
  exact Program.Settles.bind (h.mono fun a log s₁ _ hpost s₂ hlater => ⟨a, rfl, hpost s₂ hlater⟩)

theorem correlate {post : Uid → List Event → Store → Prop}
    (h : ∀ {s₁ : Store} (uid : Uid), g.rely s s₁ → post uid log s₁) :
    Pass.correlate.Settles g post log s := by
  refine lift (Program.Settles.request id fun reply hlater => ?_)
  rw [Request.events, List.append_nil]
  exact h reply hlater

theorem measure {post : Unit → List Event → Store → Prop} (m : Measurement)
    (h : ∀ {s₁ : Store}, g.rely s s₁ → post () log s₁) :
    (Pass.measure m).Settles g post log s := by
  refine lift (Program.Settles.request id fun _ hlater => ?_)
  rw [Request.events, List.append_nil]
  exact h hlater

theorem publish {post : Unit → List Event → Store → Prop} (e : Event)
    (h : ∀ {s₁ : Store}, g.rely s s₁ → post () (log ++ [e.uncorrelated]) s₁) :
    (Pass.publish e).Settles g post log s :=
  lift (Program.Settles.request id fun _ hlater => h hlater)

/-! ### Reading -/

section resource

variable [Resource α] [LawfulResource α] {key : Key}

omit [LawfulResource α] in
theorem find? {stored : Option α} {post : Option α → List Event → Store → Prop}
    (hfind : ∀ {s₁ : Store}, g.rely s s₁ → found? (s₁.get (Resource.kind α) key) = .ok stored)
    (h : ∀ {s₁ : Store}, g.rely s s₁ → post stored log s₁) :
    (Pass.find? key : Pass (Option α)).Settles g post log s := by
  show Program.Settles g _ (Pass.find? key : Pass (Option α)).run log s
  rw [run_find?]
  rintro s₁ s₂ reply hlater ⟨now, hserved⟩ -
  cases hserved
  refine ⟨g.idle _, fun s' hlater' => ⟨stored, hfind hlater, ?_⟩⟩
  rw [Request.events, List.append_nil]
  exact h (g.trans hlater hlater')

omit [LawfulResource α] in
theorem get {stored : α} {post : α → List Event → Store → Prop}
    (hfind : ∀ {s₁ : Store}, g.rely s s₁ → decoded (s₁.get (Resource.kind α) key) = .ok stored)
    (h : ∀ {s₁ : Store}, g.rely s s₁ → post stored log s₁) :
    (Pass.get key : Pass α).Settles g post log s := by
  refine bind (lift (p := .request (.store (.get (Resource.kind α) key))) ?_)
  rintro s₁ s₂ reply hlater ⟨now, hserved⟩ -
  cases hserved
  refine ⟨g.idle _, fun s' hlater' => ?_⟩
  dsimp only
  rw [Request.events, List.append_nil, hfind hlater]
  exact pure fun hlater'' => h (g.trans hlater (g.trans hlater' hlater''))

omit [LawfulResource α] in
theorem list {filter : Filter} {stored : List α} {post : List α → List Event → Store → Prop}
    (hlist : ∀ {s₁ : Store}, g.rely s s₁ →
      (s₁.list (Resource.kind α) filter).mapM Resource.decode = .ok stored)
    (h : ∀ {s₁ : Store}, g.rely s s₁ → post stored log s₁) :
    (Pass.list filter : Pass (List α)).Settles g post log s := by
  refine bind (lift (p := .request (.store (.list (Resource.kind α) filter))) ?_)
  rintro s₁ s₂ reply hlater ⟨now, hserved⟩ -
  cases hserved
  refine ⟨g.idle _, fun s' hlater' => ?_⟩
  dsimp only
  rw [Request.events, List.append_nil, hlist hlater]
  exact pure fun hlater'' => h (g.trans hlater (g.trans hlater' hlater''))

/-! ### Deleting and creating -/

omit [Resource α] [LawfulResource α] in
theorem delete {kind : Kind} {post : Except StoreError Unit → List Event → Store → Prop}
    (h : ∀ {s₁ s₂ : Store} {reply : Except StoreError Unit} (now : Instant), g.rely s s₁ →
      s₁.delete now kind key .background = (reply, s₂) → g.given s₂ →
      g.leaves s₁ s₂ ∧ ∀ {s'}, g.rely s₂ s' → post reply log s') :
    (Pass.lift (Pass.delete kind key)).Settles g post log s := by
  refine lift (p := .request (.store (.delete kind key .background))) ?_
  rintro s₁ s₂ reply hlater ⟨now, hserved⟩ hgiven
  obtain ⟨hleaves, hpost⟩ := h now hlater hserved hgiven
  refine ⟨hleaves, fun s' hlater' => ?_⟩
  rw [Request.events, List.append_nil]
  exact hpost hlater'

omit [LawfulResource α] in
theorem create {a : α} {post : Except StoreError α → List Event → Store → Prop}
    (h : ∀ {s₁ s₂ : Store} {reply : Except StoreError Object} (now : Instant), g.rely s s₁ →
      s₁.create now (Resource.kind α) (Resource.encode a) = (reply, s₂) → g.given s₂ →
      g.leaves s₁ s₂ ∧ ∀ {s'}, g.rely s₂ s' → post (decoded reply) log s') :
    (Pass.lift (Pass.create a)).Settles g post log s := by
  refine lift (Program.Settles.bind ?_)
  rintro s₁ s₂ reply hlater ⟨now, hserved⟩ hgiven
  obtain ⟨hleaves, hpost⟩ := h now hlater hserved hgiven
  refine ⟨hleaves, fun s' hlater' s'' hlater'' => ?_⟩
  rw [Request.events, List.append_nil]
  exact hpost (g.trans hlater' hlater'')

/-! ### Changing -/

/-- What is done to the store with a change that has something to write. -/
theorem modify_written {β : Type} {a changed : α} {note : β} {attempts : Nat}
    {change : α → α × Option β} {post : Option (α × Option β) → List Event → Store → Prop}
    (hfind : ∀ {s₁ : Store}, g.rely s s₁ → found? (s₁.get (Resource.kind α) key) = .ok (some a))
    (hchange : change a = (changed, some note))
    (h : ∀ {s₁ s₂ : Store} {reply : Except StoreError Object} (now : Instant),
      g.rely s s₁ →
      s₁.update now (Resource.kind α) (Resource.encode changed) = (reply, s₂) → g.given s₂ →
      g.leaves s₁ s₂ ∧ ∃ stored, reply = .ok (Resource.encode stored) ∧
        ∀ {s'}, g.rely s₂ s' → post (some (stored, some note)) log s') :
    (Pass.modify key attempts change).Settles g post log s := by
  show Program.Settles g _ (Pass.modify key attempts change).run log s
  rw [run_modify]
  rintro s₁ s₂ reply hlater ⟨now, hserved⟩ -
  cases hserved
  refine ⟨g.idle _, ?_⟩
  simp only [afterRead, hfind hlater, hchange]
  rintro s₃ s₄ reply hlater₃ ⟨now', hserved⟩ hgiven
  obtain ⟨hleaves, stored, rfl, hpost⟩ := h now' (g.trans hlater hlater₃) hserved hgiven
  refine ⟨hleaves, ?_⟩
  simp only [afterWrite, decoded, Resource.decode_encode]
  refine fun s' hlater' => ⟨_, rfl, ?_⟩
  simp only [Request.events, List.append_nil]
  exact hpost hlater'

omit [LawfulResource α] in
/-- A change that has nothing to write leaves the store alone. -/
theorem modify_same {β : Type} {a same : α} {attempts : Nat} {change : α → α × Option β}
    {post : Option (α × Option β) → List Event → Store → Prop}
    (hfind : ∀ {s₁ : Store}, g.rely s s₁ → found? (s₁.get (Resource.kind α) key) = .ok (some a))
    (hchange : change a = (same, none))
    (h : ∀ {s₁ : Store}, g.rely s s₁ → post (some (same, none)) log s₁) :
    (Pass.modify key attempts change).Settles g post log s := by
  show Program.Settles g _ (Pass.modify key attempts change).run log s
  rw [run_modify]
  rintro s₁ s₂ reply hlater ⟨now, hserved⟩ -
  cases hserved
  refine ⟨g.idle _, ?_⟩
  simp only [afterRead, hfind hlater, hchange]
  refine fun s' hlater' => ⟨_, rfl, ?_⟩
  simp only [Request.events, List.append_nil]
  exact h (g.trans hlater hlater')

end resource
end Settles
end Pass

/-! ## A program that has the store to itself -/

namespace Rules

variable {R : Repertoire.{u}} {repositories : List String} {s : Store} {w w' : World R}
  {job : R.Job} {post : R.Result job → List Event → Store → Prop}

/-- A job has not been started, or goes on to what it settles. -/
inductive Goes (repositories : List String) (s : Store) (job : R.Job)
    (post : R.Result job → List Event → Store → Prop) : World R → Prop where
  | idle : Goes repositories s job post { store := s }
  | at_work {s' : Store} {rest : Program (R.Result job)} {past : List Exchange} {abandoned : Bool} :
    rest.Settles (.alone repositories) post (Task.events ⟨job, rest, past, abandoned⟩) s' →
    Goes repositories s job post { store := s', tasks := [⟨job, rest, past, abandoned⟩] }

theorem eq_of_singleton {α : Type u} {a b : α} {front back : List α}
    (h : [a] = front ++ b :: back) : front = [] ∧ b = a ∧ back = [] := by
  simpa only [List.append_eq_singleton_iff, List.cons.injEq, reduceCtorEq, and_false, or_false]
    using h.symm

theorem goes (hsettles : (R.program job).Settles (.alone repositories) post [] s)
    (h : (inTurn R).Steps { store := s } w) (hserved : w.IsServed repositories)
    (hjobs : w.tasks.map Task.job <+: [job]) : Goes repositories s job post w := by
  induction h with
  | refl => exact .idle
  | @tail w w' hsteps hstep ih =>
    have hgoes := ih (hstep.move.isServed hserved) (hstep.move.jobs_prefix.trans hjobs)
    cases hstep.move with
    | start job' _ =>
      cases hgoes with
      | idle =>
        obtain rfl : job' = job := List.mem_singleton.1 (hjobs.subset List.mem_cons_self)
        exact .at_work hsettles
      | at_work _ =>
        have hlength := hjobs.length_le
        simp at hlength
    | @answer front back t r next reply s' htasks hkept hrest hanswered =>
      cases hgoes with
      | idle => cases front <;> cases htasks
      | @at_work s₁ rest past abandoned hgoes =>
        obtain ⟨rfl, rfl, rfl⟩ := eq_of_singleton htasks
        replace hrest : rest = .ask r next := hrest
        rw [hrest] at hgoes
        have hanswer : r.Served repositories s₁ reply s' :=
          hserved _ List.mem_cons_self _ (List.mem_append_right _ List.mem_cons_self)
        obtain ⟨-, hnext⟩ := hgoes s₁ s' reply rfl hanswer trivial
        show Goes repositories s job post
          ⟨s', [⟨job, next reply, past ++ [⟨r, reply, s₁, s'⟩], abandoned⟩]⟩
        apply Goes.at_work
        simp only [Task.events, List.flatMap_append, List.flatMap_singleton] at hnext ⊢
        exact hnext
    | @abandon front back t htasks =>
      cases hgoes with
      | idle => cases front <;> cases htasks
      | @at_work s₁ rest past abandoned hgoes =>
        obtain ⟨rfl, rfl, rfl⟩ := eq_of_singleton htasks
        exact .at_work hgoes
    | outside _ _ hr => exact hr.elim

/-- What has come of a job that has had the store to itself. -/
theorem Completed.settled (h : (inTurn R).Completed repositories s [job] w)
    (hsettles : (R.program job).Settles (.alone repositories) post [] s) :
    ∃ (a : R.Result job) (past : List Exchange) (abandoned : Bool),
      w.tasks = [⟨job, .done a, past, abandoned⟩] ∧
        post a (Task.events ⟨job, .done a, past, abandoned⟩) w.store := by
  have hjobs := h.jobs
  have hdone := h.done
  cases goes hsettles h.steps h.served (h.jobs ▸ List.prefix_rfl) with
  | idle => cases hjobs
  | @at_work s' rest past abandoned hgoes =>
    cases rest with
    | ask => cases hdone _ List.mem_cons_self
    | done a => exact ⟨a, past, abandoned, rfl, hgoes s' rfl⟩

end Rules
end CampaignControl
