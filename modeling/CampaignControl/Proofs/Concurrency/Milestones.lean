import CampaignControl.Proofs.Concurrency.Requests
import CampaignControl.Proofs.Concurrency.Script
import CampaignControl.Proofs.Store.Alike
import CampaignControl.Proofs.Store.Intact

/-!
# Programs that only add work units

What programs come to that run side by side without faults and never remove or change a work unit.
The milestones of a program are the work units that it creates, those that it announces, and the
point from which on it creates no more. The log of a world has the milestones of all its tasks.

A regime says what the store is like all the time and what goes with the log of each program. A
program abides by it if every answer to a request of its own keeps the regime, whatever the others
have added before (`Program.Abides`); the rules for passes (`Pass.Abides`) take one request at a
time, and a change of an object as if it were one request. In a world of programs that abide by a
regime, the store has just the work units in addition that the log says
(`Regime.Upheld.of_steps`).
-/

namespace CampaignControl

universe u

/-! ## Answers without faults -/

/-- How a request is answered without faults, with these repositories to be discovered. -/
def Request.Served (repositories : List String) : (r : Request) → Store → r.Reply → Store → Prop
  | .store r, s, reply, s' => ∃ now : Instant, s.serve now r = (reply, s')
  | .discover _, s, reply, s' => reply = .ok repositories ∧ s' = s
  | _, s, _, s' => s' = s

/-- A request that has been answered without faults. -/
def Exchange.IsServed (repositories : List String) (e : Exchange) : Prop :=
  e.request.Served repositories e.before e.reply e.after

namespace Request.Served

variable {repositories : List String} {r : Request} {s s' : Store} {reply : r.Reply}

theorem edits (h : r.Served repositories s reply s') : s.Edits s' := by
  cases r with
  | store r =>
    obtain ⟨now, h⟩ := h
    have hedits := Store.serve_edits now r s
    rwa [h] at hedits
  | discover => cases h.2; exact .refl
  | correlate | publish | measure => cases h; exact .refl

theorem reached (h : r.Served repositories s reply s') (hs : s.Reached) : s'.Reached := by
  cases r with
  | store r =>
    obtain ⟨now, h⟩ := h
    have hreached := hs.serve now r
    rwa [h] at hreached
  | discover => cases h.2; exact hs
  | correlate | publish | measure => cases h; exact hs

/-- A change that is based on what was read from an earlier store and keeps the metadata. It is
made if what was read is still there, and nothing happens otherwise. -/
theorem update_cases {earlier : Store} {slot : Slot} {object changed : Object}
    {reply : Except StoreError Object}
    (h : (Request.store (.update slot.kind changed)).Served repositories s reply s')
    (hs : s.Reached) (hsound : earlier.Sound) (hfollows : earlier.Follows s)
    (hfind : earlier.find? slot = some object) (hmetadata : changed.metadata = object.metadata) :
    (s.find? slot = some object ∧ reply = .ok (s.revised object changed) ∧
      s' = s.withRevised slot object changed) ∨
    (∃ e, reply = .error e ∧ s' = s ∧ (e.isConflict ∨ e.isNotFound ∧ s.find? slot = none)) := by
  obtain ⟨now, h⟩ := h
  replace h : s.update now slot.kind changed = (reply, s') := h
  have hkey : changed.key = slot.key :=
    (congrArg Metadata.key hmetadata).trans (hsound.key_eq hfind)
  have hslot : ({ kind := slot.kind, key := changed.key } : Slot) = slot :=
    congrArg (Slot.mk _) hkey
  cases found : s.find? slot with
  | none =>
    rw [Store.update_of_find?_none now (hslot ▸ found)] at h
    cases h
    exact .inr ⟨_, rfl, rfl, .inr ⟨rfl, rfl⟩⟩
  | some old =>
    by_cases hversion : old.metadata.version = changed.metadata.version
    · -- the version is the one that was read, and so is the object
      cases hfollows.eq_of_version_eq hsound hfind found
        (hversion.trans (congrArg Metadata.version hmetadata))
      rw [Store.update_of_held now found hkey hversion.symm fun hdel => ?_] at h
      · cases h
        exact .inl ⟨rfl, rfl, rfl⟩
      · rw [hmetadata]
        exact hs.intact.held _ _ found hdel
    · rw [Store.update_of_version_ne now (hslot ▸ found) hversion] at h
      cases h
      exact .inr ⟨_, rfl, rfl, .inl rfl⟩

end Request.Served

theorem Request.serve_served (now : Instant) (repositories : List String) (r : Request)
    (s : Store) :
    r.Served repositories s (r.serve now {} repositories s).1
      (r.serve now {} repositories s).2 := by
  cases r with
  | store r =>
    refine ⟨now, ?_⟩
    cases r <;> rfl
  | discover => exact ⟨rfl, rfl⟩
  | correlate | publish | measure => exact rfl

variable {R : Repertoire.{u}}

/-- What holds of all tasks still does when one is replaced by another that it holds of. -/
theorem Task.forall_replace {P : Task R → Prop} {front back : List (Task R)} {t t' : Task R}
    (h : ∀ a ∈ front ++ t :: back, P a) (ht' : P t') : ∀ a ∈ front ++ t' :: back, P a := by
  intro a ha
  rcases List.mem_cons.1 (List.perm_middle.mem_iff.1 ha) with rfl | ha
  · exact ht'
  · exact h a (List.perm_middle.mem_iff.2 (List.mem_cons_of_mem _ ha))

/-- A world where all requests have been answered without faults. -/
def World.IsServed (repositories : List String) (w : World R) : Prop :=
  ∀ t ∈ w.tasks, ∀ e ∈ t.past, e.IsServed repositories

/-- A turn at which a request is answered without faults, if at all. -/
def Turn.IsServed (repositories : List String) : Turn R → Prop
  | .answer _ _ faults found => faults = {} ∧ found = repositories
  | .start _ | .outside .. => True

namespace Rules

variable {rules : Rules R} [DecidableRel rules.excludes] [DecidablePred rules.outside]
  [DecidablePred rules.during] {repositories : List String} {w w' : World R}

omit [DecidablePred rules.during] in
theorem served_of_take {turn : Turn R} (hturn : turn.IsServed repositories)
    (hw : w.IsServed repositories) (h : rules.take w turn = some w') :
    w'.IsServed repositories := by
  cases turn with
  | start job =>
    simp only [take] at h
    split at h
    · cases h
      intro t ht e he
      rcases List.mem_append.1 ht with ht | ht
      · exact hw t ht e he
      · cases List.mem_singleton.1 ht
        cases he
    · cases h
  | answer index now faults found =>
    obtain ⟨rfl, rfl⟩ := hturn
    simp only [take] at h
    split at h
    · cases h
    · next t back hdrop =>
      have htasks : w.tasks = w.tasks.take index ++ t :: back := by
        rw [← hdrop, List.take_append_drop]
      split at h
      · cases h
      · split at h
        · cases h
          exact hw
        · next r next hrest =>
          cases h
          unfold World.IsServed at hw
          rw [htasks] at hw
          refine Task.forall_replace hw fun e he => ?_
          rcases List.mem_append.1 he with he | he
          · exact hw t (List.mem_append_right _ List.mem_cons_self) e he
          · cases List.mem_singleton.1 he
            exact r.serve_served now found w.store
  | outside now r =>
    simp only [take] at h
    split at h
    · cases h
      exact hw
    · cases h

/-- Where no answer of a script has faults, the world after it is such a world. -/
theorem served_of_play {script : List (Turn R)}
    (hscript : ∀ turn ∈ script, turn.IsServed repositories) (hw : w.IsServed repositories)
    (h : rules.play w script = some w') : w'.IsServed repositories := by
  induction script generalizing w with
  | nil => cases h; exact hw
  | cons turn rest ih =>
    simp only [play] at h
    split at h
    · cases h
    · next between htake =>
      split at h
      · refine ih (fun turn h => hscript turn (List.mem_cons_of_mem _ h)) ?_ h
        exact served_of_take (hscript turn List.mem_cons_self) hw htake
      · cases h

end Rules

/-! ## Milestones -/

inductive Milestone where
  /-- A work unit has been created. -/
  | created (key : Key)
  /-- A work unit has been announced as admitted. -/
  | announced (key : Key)
  /-- All work units have been tried. -/
  | settled
  deriving DecidableEq, Repr

def StoreRequest.milestones : (r : StoreRequest) → r.Reply → List Milestone
  | .create kind object, .ok _ => if kind = .workUnit then [.created object.key] else []
  | _, _ => []

def Event.milestones (e : Event) : List Milestone :=
  match e.payload with
  | .admitted .. => [.announced e.entity]
  | _ => []

/-- The live work units are counted when all have been tried. -/
def Measurement.milestones : Measurement → List Milestone
  | .active .. => [.settled]
  | _ => []

/-- What a program has come to with the answer to a request. -/
def Request.milestones : (r : Request) → r.Reply → List Milestone
  | .store r, reply => r.milestones reply
  | .publish e, _ => e.milestones
  | .measure m, _ => m.milestones
  | .discover _, _ | .correlate, _ => []

def Task.log (t : Task R) : List Milestone :=
  t.past.flatMap fun e => e.request.milestones e.reply

def World.log (w : World R) : List Milestone := w.tasks.flatMap Task.log

/-! ## Added work units -/

namespace Store

/-- How many work units there are at a key. -/
def holds (s : Store) (key : Key) : Nat :=
  if (s.find? { kind := .workUnit, key }).isSome then 1 else 0

/-- The work units stay as they are, and there may be new ones. -/
def Grows (s s' : Store) : Prop :=
  ∀ key o, s.find? { kind := .workUnit, key } = some o →
    s'.find? { kind := .workUnit, key } = some o

/-- The new work units are those that are said to be created. -/
structure Adds (milestones : List Milestone) (s s' : Store) : Prop where
  grows : s.Grows s'
  holds : ∀ key, s'.holds key = s.holds key + milestones.count (.created key)

variable {s s' s'' : Store} {key : Key}

theorem Grows.refl (s : Store) : s.Grows s := fun _ _ h => h

theorem Grows.trans (h : s.Grows s') (h' : s'.Grows s'') : s.Grows s'' :=
  fun key o found => h' key o (h key o found)

theorem Grows.find?_ne_none (h : s.Grows s') (hs : s.find? { kind := .workUnit, key } ≠ none) :
    s'.find? { kind := .workUnit, key } ≠ none := by
  obtain ⟨o, found⟩ := Option.ne_none_iff_exists'.1 hs
  rw [h key o found]
  exact Option.some_ne_none o

theorem Adds.refl (s : Store) : s.Adds [] s := ⟨.refl s, fun _ => rfl⟩

theorem AlikeBut.adds {slot : Slot} (h : AlikeBut slot s s') (hkind : slot.kind ≠ .workUnit) :
    s.Adds [] s' := by
  have hfind : ∀ key, s'.find? { kind := .workUnit, key } = s.find? { kind := .workUnit, key } :=
    fun key => h.find? _ (ne_of_apply_ne Slot.kind (Ne.symm hkind))
  refine ⟨fun key o found => (hfind key).trans found, fun key => ?_⟩
  rw [Store.holds, hfind]
  rfl

theorem adds_withNew (hnone : s.find? { kind := .workUnit, key } = none) (now : Instant)
    (object : Object) :
    s.Adds [.created key] (s.withNew now { kind := .workUnit, key } object) := by
  refine ⟨fun key' o found => ?_, fun key' => ?_⟩
  · rw [find?_withNew, if_neg fun heq => ?_]
    · exact found
    · rw [← heq, hnone] at found
      cases found
  · rw [Store.holds, find?_withNew, Store.holds, List.count_singleton]
    by_cases heq : key = key'
    · subst heq
      simp [hnone]
    · simp [heq]

end Store

/-! ## Regimes -/

/-- A pass has failed because there was something already. -/
def Error.isClash : Error → Bool
  | .store e => e.isAlreadyExists
  | _ => false

/-- What programs keep together. -/
structure Regime where
  /-- What each of them discovers. -/
  repositories : List String
  /-- What the store is like all the time. -/
  inv : Store → Prop
  /-- What holds of the log of a program, beside the store. -/
  kept : List Milestone → Store → Prop
  kept_grows : ∀ {log s s'}, s.Grows s' → kept log s → kept log s'

variable {g : Regime} {log : List Milestone} {s s' s'' : Store}

namespace Regime

/-- What the store may have become while others worked on it. -/
structure Later (g : Regime) (s s' : Store) : Prop where
  follows : s.Follows s'
  reached : s'.Reached
  grows : s.Grows s'
  inv : g.inv s'

theorem Later.trans (h : g.Later s s') (h' : g.Later s' s'') : g.Later s s'' where
  follows := h.follows.trans h'.follows
  reached := h'.reached
  grows := h.grows.trans h'.grows
  inv := h'.inv

theorem Later.kept (h : g.Later s s') (hkept : g.kept log s) : g.kept log s' :=
  g.kept_grows h.grows hkept

theorem Later.sound (h : g.Later s s') : s'.Sound := h.reached.intact.toSound

end Regime

namespace Program

variable {α β : Type}

/-- A program that has come to the milestones of a log abides by a regime from a store on, and
`post` holds of its value, of its whole log and of the store after its last request. -/
def Abides (g : Regime) (post : α → List Milestone → Store → Prop) :
    Program α → List Milestone → Store → Prop
  | .done a, log, s => g.kept log s ∧ post a log s
  | .ask r next, log, s => g.kept log s ∧ ∀ (s₁ s₂ : Store) (reply : r.Reply), g.Later s s₁ →
    r.Served g.repositories s₁ reply s₂ → g.inv s₂ ∧ s₁.Adds (r.milestones reply) s₂ ∧
      (next reply).Abides g post (log ++ r.milestones reply) s₂

namespace Abides

variable {post post' : α → List Milestone → Store → Prop}

theorem kept {p : Program α} (h : p.Abides g post log s) : g.kept log s := by
  cases p <;> exact h.1

theorem mono {p : Program α} (h : p.Abides g post log s)
    (hpost : ∀ a log s, g.kept log s → post a log s → post' a log s) :
    p.Abides g post' log s := by
  induction p generalizing log s with
  | done a => exact ⟨h.1, hpost a log s h.1 h.2⟩
  | ask r next ih =>
    refine ⟨h.1, fun s₁ s₂ reply hlater hserved => ?_⟩
    obtain ⟨hinv, hadds, hnext⟩ := h.2 s₁ s₂ reply hlater hserved
    exact ⟨hinv, hadds, ih reply hnext⟩

/-- What holds of a store and of all that it grows to still holds at the end. -/
theorem frame {F : Store → Prop} (hF : ∀ {s s'}, s.Grows s' → F s → F s') {p : Program α}
    (h : p.Abides g post log s) (hs : F s) :
    p.Abides g (fun a log s => post a log s ∧ F s) log s := by
  induction p generalizing log s with
  | done a => exact ⟨h.1, h.2, hs⟩
  | ask r next ih =>
    refine ⟨h.1, fun s₁ s₂ reply hlater hserved => ?_⟩
    obtain ⟨hinv, hadds, hnext⟩ := h.2 s₁ s₂ reply hlater hserved
    exact ⟨hinv, hadds, ih reply hnext (hF hadds.grows (hF hlater.grows hs))⟩

theorem bind {post : β → List Milestone → Store → Prop} {p : Program α} {f : α → Program β}
    (h : p.Abides g (fun a log s => (f a).Abides g post log s) log s) :
    (p >>= f).Abides g post log s := by
  show (p.bind f).Abides g post log s
  induction p generalizing log s with
  | done a => exact h.2
  | ask r next ih =>
    refine ⟨h.1, fun s₁ s₂ reply hlater hserved => ?_⟩
    obtain ⟨hinv, hadds, hnext⟩ := h.2 s₁ s₂ reply hlater hserved
    exact ⟨hinv, hadds, ih reply hnext⟩

/-- A request that leaves the store as it is. -/
theorem ask {r : Request} {next : r.Reply → Program α} (hkept : g.kept log s)
    (h : ∀ {s₁ s₂ : Store} {reply : r.Reply}, g.Later s s₁ →
      r.Served g.repositories s₁ reply s₂ → s₂ = s₁ ∧ r.milestones reply = [] ∧
        (next reply).Abides g post log s₁) :
    (Program.ask r next).Abides g post log s := by
  refine ⟨hkept, fun s₁ s₂ reply hlater hserved => ?_⟩
  obtain ⟨rfl, hquiet, hnext⟩ := h hlater hserved
  rw [hquiet, List.append_nil]
  exact ⟨hlater.inv, .refl _, hnext⟩

end Abides
end Program

/-! ## Passes -/

namespace Pass

variable {α β γ : Type}

/-- A pass abides by a regime and does not fail because there is something already. `post` holds
of its result, if there is one. -/
def Abides (g : Regime) (post : γ → List Milestone → Store → Prop) (p : Pass γ)
    (log : List Milestone) (s : Store) : Prop :=
  Program.Abides g (fun result log s =>
    match result with
    | .ok a => post a log s
    | .error e => e.isClash = false) p.run log s

namespace Abides

theorem mono {post post' : γ → List Milestone → Store → Prop} {p : Pass γ}
    (h : p.Abides g post log s)
    (hpost : ∀ a log s, g.kept log s → post a log s → post' a log s) :
    p.Abides g post' log s :=
  Program.Abides.mono h fun result log s hkept hresult =>
    match result, hresult with
    | .ok a, hresult => hpost a log s hkept hresult
    | .error _, hresult => hresult

/-- What holds of a store and of all that it grows to still holds where there is a result. -/
theorem frame {post : γ → List Milestone → Store → Prop} {F : Store → Prop}
    (hF : ∀ {s s'}, s.Grows s' → F s → F s') {p : Pass γ} (h : p.Abides g post log s)
    (hs : F s) : p.Abides g (fun a log s => post a log s ∧ F s) log s :=
  (Program.Abides.frame hF h hs).mono fun result _ _ _ hresult =>
    match result, hresult with
    | .ok _, hresult => hresult
    | .error _, hresult => hresult.1

theorem pure {post : γ → List Milestone → Store → Prop} {a : γ} (hkept : g.kept log s)
    (h : post a log s) : (Pure.pure a : Pass γ).Abides g post log s := ⟨hkept, h⟩

theorem throw {post : γ → List Milestone → Store → Prop} {e : Error} (hkept : g.kept log s)
    (h : e.isClash = false) : (MonadExcept.throw e : Pass γ).Abides g post log s := ⟨hkept, h⟩

theorem bind {δ : Type} {post : δ → List Milestone → Store → Prop} {p : Pass γ} {f : γ → Pass δ}
    (h : p.Abides g (fun a log s => (f a).Abides g post log s) log s) :
    (p >>= f).Abides g post log s := by
  show Program.Abides g _ (p >>= f).run log s
  rw [ExceptT.run_bind]
  refine Program.Abides.bind (Program.Abides.mono h fun result log s hkept hresult => ?_)
  cases result with
  | ok a => exact hresult
  | error e => exact ⟨hkept, hresult⟩

theorem lift {post : γ → List Milestone → Store → Prop} {p : Program γ}
    (h : p.Abides g post log s) : (Pass.lift p).Abides g post log s := by
  show Program.Abides g _ (Pass.lift p).run log s
  rw [Pass.lift, ExceptT.run_lift, map_eq_pure_bind]
  exact Program.Abides.bind (h.mono fun a log s hkept hpost => ⟨hkept, hpost⟩)

theorem outcome {post : Except Error γ → List Milestone → Store → Prop} {p : Pass γ}
    (h : Program.Abides g post p.run log s) : (Pass.outcome p).Abides g post log s := lift h

theorem correlate {post : Uid → List Milestone → Store → Prop} (hkept : g.kept log s)
    (h : ∀ {s₁ : Store} (uid : Uid), g.Later s s₁ → post uid log s₁) :
    Pass.correlate.Abides g post log s :=
  lift (.ask hkept fun hlater hserved => ⟨hserved, rfl, hlater.kept hkept, h _ hlater⟩)

theorem discover {post : Except String (List String) → List Milestone → Store → Prop}
    {campaign : Campaign} (hkept : g.kept log s)
    (h : ∀ {s₁ : Store}, g.Later s s₁ → post (.ok g.repositories) log s₁) :
    (Pass.lift (.request (.discover campaign))).Abides g post log s :=
  lift (.ask hkept fun hlater hserved =>
    ⟨hserved.2, rfl, hlater.kept hkept, hserved.1 ▸ h hlater⟩)

theorem publish {post : Unit → List Milestone → Store → Prop} (e : Event) (hkept : g.kept log s)
    (h : ∀ {s₁ : Store}, g.Later s s₁ →
      g.kept (log ++ e.milestones) s₁ ∧ post () (log ++ e.milestones) s₁) :
    (Pass.publish e).Abides g post log s := by
  refine lift (p := .request (.publish e)) ⟨hkept, fun s₁ s₂ reply hlater hserved => ?_⟩
  cases hserved
  refine ⟨hlater.inv, ⟨.refl _, fun key => ?_⟩, h hlater⟩
  have hnot : (Milestone.created key) ∉ e.milestones := by
    unfold Event.milestones
    split <;> simp
  exact (Nat.add_eq_left.2 (List.count_eq_zero_of_not_mem hnot)).symm

/-- An event that is no milestone. -/
theorem publish_quiet {post : Unit → List Milestone → Store → Prop} {e : Event}
    (hquiet : e.milestones = []) (hkept : g.kept log s)
    (h : ∀ {s₁ : Store}, g.Later s s₁ → post () log s₁) : (Pass.publish e).Abides g post log s :=
  publish e hkept fun hlater => by
    rw [hquiet, List.append_nil]
    exact ⟨hlater.kept hkept, h hlater⟩

theorem measure {post : Unit → List Milestone → Store → Prop} (m : Measurement)
    (hkept : g.kept log s)
    (h : ∀ {s₁ : Store}, g.Later s s₁ →
      g.kept (log ++ m.milestones) s₁ ∧ post () (log ++ m.milestones) s₁) :
    (Pass.measure m).Abides g post log s := by
  refine lift (p := .request (.measure m)) ⟨hkept, fun s₁ s₂ reply hlater hserved => ?_⟩
  cases hserved
  refine ⟨hlater.inv, ⟨.refl _, fun key => ?_⟩, h hlater⟩
  have hnot : (Milestone.created key) ∉ m.milestones := by
    unfold Measurement.milestones
    split <;> simp
  exact (Nat.add_eq_left.2 (List.count_eq_zero_of_not_mem hnot)).symm

/-- A measurement that is no milestone. -/
theorem measure_quiet {post : Unit → List Milestone → Store → Prop} {m : Measurement}
    (hquiet : m.milestones = []) (hkept : g.kept log s)
    (h : ∀ {s₁ : Store}, g.Later s s₁ → post () log s₁) : (Pass.measure m).Abides g post log s :=
  measure m hkept fun hlater => by
    rw [hquiet, List.append_nil]
    exact ⟨hlater.kept hkept, h hlater⟩

section resource

variable [Resource α] {key : Key}

theorem isClash_of_decode {object : Object} {e : StoreError}
    (h : (Resource.decode object : Except StoreError α) = .error e) :
    (Error.store e).isClash = false := by
  unfold Resource.decode at h
  split at h <;> cases h
  rfl

theorem isClash_of_mapM {objects : List Object} {e : StoreError}
    (h : (objects.mapM Resource.decode : Except StoreError (List α)) = .error e) :
    (Error.store e).isClash = false := by
  induction objects with
  | nil => cases h
  | cons object rest ih =>
    rw [List.mapM_cons] at h
    cases hobject : (Resource.decode object : Except StoreError α) with
    | error e' =>
      rw [hobject] at h
      cases h
      exact isClash_of_decode hobject
    | ok a =>
      cases hrest : (rest.mapM Resource.decode : Except StoreError (List α)) with
      | error e' =>
        rw [hobject, hrest] at h
        cases h
        exact ih hrest
      | ok items =>
        rw [hobject, hrest] at h
        cases h

theorem find? {post : Option α → List Milestone → Store → Prop} (hkept : g.kept log s)
    (hfound : ∀ {s₁ : Store} {object : Object} {a : α}, g.Later s s₁ →
      s₁.find? { kind := Resource.kind α, key } = some object → Resource.decode object = .ok a →
      post (some a) log s₁)
    (hnone : ∀ {s₁ : Store}, g.Later s s₁ →
      s₁.find? { kind := Resource.kind α, key } = none → post none log s₁) :
    (Pass.find? key : Pass (Option α)).Abides g post log s := by
  show Program.Abides g _ (Pass.find? key : Pass (Option α)).run log s
  rw [run_find?]
  refine .ask hkept fun {s₁ s₂ reply} hlater hserved => ?_
  obtain ⟨now, hserved⟩ := hserved
  cases hserved
  refine ⟨rfl, rfl, hlater.kept hkept, ?_⟩
  unfold Store.get
  split
  · next object found =>
    cases hdecode : (Resource.decode object : Except StoreError α) with
    | ok a => simp only [found?, hdecode]; exact hfound hlater found hdecode
    | error e => simp only [found?, hdecode]; exact isClash_of_decode hdecode
  · next hnot => exact hnone hlater hnot

theorem list {filter : Filter} {post : List α → List Milestone → Store → Prop}
    (hkept : g.kept log s)
    (h : ∀ {s₁ : Store} {items : List α}, g.Later s s₁ →
      (s₁.list (Resource.kind α) filter).mapM Resource.decode = .ok items → post items log s₁) :
    (Pass.list filter).Abides g post log s := by
  refine bind (lift (p := .request (.store (.list (Resource.kind α) filter)))
    (.ask hkept fun {s₁ s₂ reply} hlater hserved => ?_))
  obtain ⟨now, hserved⟩ := hserved
  cases hserved
  refine ⟨rfl, rfl, hlater.kept hkept, ?_⟩
  show (Pass.ofStore ((s₁.list (Resource.kind α) filter).mapM Resource.decode)).Abides g post log s₁
  cases hitems : (s₁.list (Resource.kind α) filter).mapM
    (Resource.decode : Object → Except StoreError α) with
  | ok items => exact pure (hlater.kept hkept) (h hlater hitems)
  | error e => exact throw (hlater.kept hkept) (isClash_of_mapM hitems)

variable [LawfulResource α]

/-- What a program has come to with the creation of an object. -/
def created (a : α) : List Milestone :=
  if Resource.kind α = .workUnit then [.created (Resource.key a)] else []

theorem create {a : α} {post : Except StoreError α → List Milestone → Store → Prop}
    (hkept : g.kept log s)
    (hcreated : ∀ {s₁ : Store} (now : Instant), g.Later s s₁ →
      s₁.find? (Resource.slot a) = none →
      g.inv (s₁.withNew now (Resource.slot a) (Resource.encode a)) ∧
        g.kept (log ++ created a) (s₁.withNew now (Resource.slot a) (Resource.encode a)) ∧
        post (.ok (Resource.setMetadata (s₁.newborn now (Resource.encode a)).metadata a))
          (log ++ created a) (s₁.withNew now (Resource.slot a) (Resource.encode a)))
    (hfound : ∀ {s₁ : Store} {o : Object}, g.Later s s₁ → s₁.find? (Resource.slot a) = some o →
      post (.error (.alreadyExists (Resource.kind α) (Resource.key a))) log s₁) :
    (Pass.lift (Pass.create a)).Abides g post log s := by
  refine lift (Program.Abides.bind ⟨hkept, fun s₁ s₂ reply hlater hserved => ?_⟩)
  obtain ⟨now, hserved⟩ := hserved
  replace hserved : s₁.create now (Resource.kind α) (Resource.encode a) = (reply, s₂) := hserved
  cases found : s₁.find? (Resource.slot a) with
  | none =>
    rw [Store.create_of_find?_none now found] at hserved
    cases hserved
    obtain ⟨hinv, hkept', hpost⟩ := hcreated now hlater found
    refine ⟨hinv, ?_, hkept', ?_⟩
    · show s₁.Adds (if Resource.kind α = .workUnit then [.created (Resource.key a)] else []) _
      split
      · next hkind =>
        unfold Resource.slot at found
        rw [hkind] at found
        exact hkind ▸ Store.adds_withNew found now (Resource.encode a)
      · next hkind => exact (Store.AlikeBut.withNew ..).adds hkind
    · show g.kept _ _ ∧ post (decoded (.ok (s₁.newborn now (Resource.encode a)))) _ _
      rw [decoded_newborn]
      exact ⟨hkept', hpost⟩
  | some o =>
    rw [Store.create_of_find?_some now found] at hserved
    cases hserved
    refine ⟨hlater.inv, .refl _, ?_⟩
    show Program.Abides g _ _ (log ++ []) _
    rw [List.append_nil]
    exact ⟨hlater.kept hkept, hlater.kept hkept, hfound hlater found⟩

/-- What was read is written back: it takes the place of what was read, or the object is gone, or
somebody else has changed it and there is another attempt. -/
theorem write {change : Nat → α → α × Option β} {attempts left : Nat}
    {post : Option (α × Option β) → List Milestone → Store → Prop} {object : Object} {changed : α}
    {note : β} (hkind : Resource.kind α ≠ .workUnit) (hkept : g.kept log s) (hsound : s.Sound)
    (found : s.find? { kind := Resource.kind α, key } = some object)
    (hplace : (Resource.encode changed).metadata = object.metadata)
    (hwritten : ∀ {s₁ : Store}, g.Later s s₁ →
      s₁.find? { kind := Resource.kind α, key } = some object →
      g.inv (s₁.withRevised { kind := Resource.kind α, key } object (Resource.encode changed)) ∧
        post (some (Resource.setMetadata (s₁.revised object (Resource.encode changed)).metadata
          changed, some note)) log
          (s₁.withRevised { kind := Resource.kind α, key } object (Resource.encode changed)))
    (hgone : ∀ {s₁ : Store}, g.Later s s₁ →
      s₁.find? { kind := Resource.kind α, key } = none → post none log s₁)
    (hagain : ∀ {s₁ : Store}, g.Later s s₁ →
      (modifyWithin key change attempts left).Abides g post log s₁) :
    Pass.Abides g post (.mk (.ask (.store (.update (Resource.kind α) (Resource.encode changed)))
      (afterWrite key change attempts left note))) log s := by
  refine ⟨hkept, fun s₁ s₂ reply hlater hserved => ?_⟩
  have hkept₁ := hlater.kept hkept
  rcases hserved.update_cases hlater.reached hsound hlater.follows found hplace
    with ⟨hnow, rfl, rfl⟩ | ⟨e, rfl, rfl, he⟩
  · obtain ⟨hinv, hpost⟩ := hwritten hlater hnow
    have hadds : s₁.Adds [] _ := (Store.AlikeBut.withRevised s₁
      { kind := Resource.kind α, key } object (Resource.encode changed)).adds hkind
    refine ⟨hinv, hadds, ?_⟩
    show Program.Abides g _ _ (log ++ []) _
    rw [List.append_nil, afterWrite_revised]
    exact pure (g.kept_grows hadds.grows hkept₁) hpost
  · refine ⟨hlater.inv, .refl _, ?_⟩
    show Program.Abides g _ _ (log ++ []) _
    rw [List.append_nil]
    simp only [afterWrite, decoded]
    split
    · exact hagain hlater
    · next hconflict =>
      obtain ⟨hnot, hnone⟩ := he.resolve_left hconflict
      rw [if_pos hnot]
      exact pure hkept₁ (hgone hlater hnone)

/-- A change of an object that is not a work unit and keeps its metadata, as one request. -/
theorem modify {attempts : Nat} {change : α → α × Option β}
    {post : Option (α × Option β) → List Milestone → Store → Prop}
    (hkind : Resource.kind α ≠ .workUnit)
    (hmetadata : ∀ a, Resource.metadata (change a).1 = Resource.metadata a)
    (hkept : g.kept log s)
    (hnone : ∀ {s₁ : Store}, g.Later s s₁ →
      s₁.find? { kind := Resource.kind α, key } = none → post none log s₁)
    (hsame : ∀ {s₁ : Store} {object : Object} {current same : α}, g.Later s s₁ →
      s₁.find? { kind := Resource.kind α, key } = some object →
      Resource.decode object = .ok current → change current = (same, none) →
      post (some (same, none)) log s₁)
    (hwrite : ∀ {s₁ : Store} {object : Object} {current changed : α} {note : β}, g.Later s s₁ →
      s₁.find? { kind := Resource.kind α, key } = some object →
      Resource.decode object = .ok current → change current = (changed, some note) →
      g.inv (s₁.withRevised { kind := Resource.kind α, key } object (Resource.encode changed)) ∧
        post (some (Resource.setMetadata (s₁.revised object (Resource.encode changed)).metadata
          changed, some note)) log
          (s₁.withRevised { kind := Resource.kind α, key } object (Resource.encode changed))) :
    (Pass.modify key attempts change).Abides g post log s := by
  -- an attempt begins with a later store than the change as a whole
  have hwithin : ∀ (left : Nat) (t : Store), g.kept log t →
      (∀ {s₁}, g.Later t s₁ → g.Later s s₁) →
      (modifyWithin key (fun _ => change) (max attempts 1) left).Abides g post log t := by
    intro left
    induction left with
    | zero => exact fun t hkept _ => throw hkept rfl
    | succ left ih =>
      intro t hkept hlater_of
      show Program.Abides g _
        (modifyWithin key (fun _ => change) (max attempts 1) (left + 1)).run log t
      rw [run_modifyWithin_succ]
      refine .ask hkept fun {s₁ s₂ reply} hlater hserved => ?_
      obtain ⟨now, hserved⟩ := hserved
      cases hserved
      refine ⟨rfl, rfl, ?_⟩
      have hkept₁ := hlater.kept hkept
      have hlater₁ := hlater_of hlater
      unfold Store.get
      split
      · next object found =>
        cases hdecode : (Resource.decode object : Except StoreError α) with
        | error e =>
          simp only [afterRead, found?, hdecode]
          exact throw hkept₁ (isClash_of_decode hdecode)
        | ok current =>
          rcases hchange : change current with ⟨changed, note⟩
          cases note with
          | none =>
            simp only [afterRead, found?, hdecode, hchange]
            exact pure hkept₁ (hsame hlater₁ found hdecode hchange)
          | some note =>
            have hplace : (Resource.encode changed).metadata = object.metadata := by
              have hmeta := hmetadata current
              rw [hchange] at hmeta
              exact hmeta.trans (Resource.metadata_of_decode hdecode)
            simp only [afterRead, found?, hdecode, hchange]
            exact write hkind hkept₁ hlater.sound found hplace
              (fun hlater₂ hnow => hwrite (hlater₁.trans hlater₂) hnow hdecode hchange)
              (fun hlater₂ hgone => hnone (hlater₁.trans hlater₂) hgone)
              fun hlater₂ => ih _ (hlater₂.kept hkept₁) fun h => (hlater₁.trans hlater₂).trans h
      · next hnot => exact pure hkept₁ (hnone hlater₁ hnot)
  exact hwithin _ s hkept id

end resource

end Abides
end Pass

/-! ## Worlds -/

theorem Task.log_answered (t : Task R) (r : Request) (next : r.Reply → Program (R.Result t.job))
    (reply : r.Reply) (s s' : Store) :
    (t.answered r next reply s s').log = t.log ++ r.milestones reply := by
  simp [Task.log, Task.answered, List.flatMap_append]

/-- The log of a world after an answer. -/
theorem World.count_log_answered {front back : List (Task R)} {t : Task R} {r : Request}
    {next : r.Reply → Program (R.Result t.job)} {reply : r.Reply} {s s' : Store}
    {w w' : World R} (hw : w.tasks = front ++ t :: back)
    (hw' : w'.tasks = front ++ t.answered r next reply s s' :: back) (m : Milestone) :
    w'.log.count m = w.log.count m + (r.milestones reply).count m := by
  unfold World.log
  rw [hw, hw']
  simp only [List.flatMap_append, List.flatMap_cons, List.count_append, Task.log_answered]
  omega

namespace Regime

/-- A regime is kept from a store on: by the store of the world, and by the tasks. -/
structure Upheld (g : Regime) (post : (job : R.Job) → R.Result job → List Milestone → Store → Prop)
    (s : Store) (w : World R) : Prop where
  reached : w.store.Reached
  inv : g.inv w.store
  grows : s.Grows w.store
  holds : ∀ key, w.store.holds key = s.holds key + w.log.count (.created key)
  tasks : ∀ t ∈ w.tasks, ∃ s₀, g.Later s₀ w.store ∧ t.rest.Abides g (post t.job) t.log s₀

namespace Upheld

variable {post : (job : R.Job) → R.Result job → List Milestone → Store → Prop} {w w' : World R}

/-- The log of a task goes with the store. -/
theorem kept (h : g.Upheld post s w) {t : Task R} (ht : t ∈ w.tasks) : g.kept t.log w.store := by
  obtain ⟨s₀, hlater, hrest⟩ := h.tasks t ht
  exact hlater.kept hrest.kept

theorem of_done (h : g.Upheld post s w) {t : Task R} (ht : t ∈ w.tasks) {result : R.Result t.job}
    (hdone : t.rest = .done result) : ∃ s₀, post t.job result t.log s₀ := by
  obtain ⟨s₀, -, hrest⟩ := h.tasks t ht
  rw [hdone] at hrest
  exact ⟨s₀, hrest.2⟩

theorem move {rules : Rules R} (houtside : ∀ r, ¬ rules.outside r)
    (hprogram : ∀ job {s}, s.Reached → g.inv s → (R.program job).Abides g (post job) [] s)
    (h : g.Upheld post s w) (hmove : rules.Move w w')
    (hserved : w'.IsServed g.repositories) : g.Upheld post s w' := by
  have hrefl : g.Later w.store w.store := ⟨.refl _, h.reached, .refl _, h.inv⟩
  cases hmove with
  | start job hfree =>
    refine ⟨h.reached, h.inv, h.grows, fun key => ?_, fun t ht => ?_⟩
    · rw [h.holds]
      simp [World.log, Task.log, Task.start]
    · rcases List.mem_append.1 ht with ht | ht
      · exact h.tasks t ht
      · cases List.mem_singleton.1 ht
        exact ⟨w.store, hrefl, hprogram job h.reached h.inv⟩
  | @answer front back t r next reply s' htasks hkept hrest hanswered =>
    have hmem : t ∈ w.tasks := by rw [htasks]; exact List.mem_append_right _ List.mem_cons_self
    have hanswer : r.Served g.repositories w.store reply s' := by
      refine hserved (t.answered r next reply w.store s')
        (List.mem_append_right _ List.mem_cons_self)
        { request := r, reply, before := w.store, after := s' } ?_
      exact List.mem_append_right _ (List.mem_singleton.2 rfl)
    obtain ⟨s₀, hlater, habides⟩ := h.tasks t hmem
    rw [hrest] at habides
    obtain ⟨hinv, hadds, hnext⟩ := habides.2 w.store s' reply hlater hanswer
    have hreached := hanswer.reached h.reached
    have hlater' : g.Later w.store s' := ⟨hanswer.edits.follows, hreached, hadds.grows, hinv⟩
    refine ⟨hreached, hinv, h.grows.trans hadds.grows, fun key => ?_, ?_⟩
    · rw [World.count_log_answered htasks rfl, ← Nat.add_assoc, ← h.holds]
      exact hadds.holds key
    · have hother : ∀ t' ∈ w.tasks, ∃ s₀, g.Later s₀ s' ∧
          t'.rest.Abides g (post t'.job) t'.log s₀ := by
        intro t' ht'
        obtain ⟨s₀, hlater, habides⟩ := h.tasks t' ht'
        exact ⟨s₀, hlater.trans hlater', habides⟩
      rw [htasks] at hother
      refine Task.forall_replace hother ⟨s', ⟨.refl _, hreached, .refl _, hinv⟩, ?_⟩
      rw [Task.log_answered]
      exact hnext
  | @abandon front back t htasks =>
    have hold := h.tasks
    rw [htasks] at hold
    refine ⟨h.reached, h.inv, h.grows, fun key => ?_,
      Task.forall_replace hold (hold t (List.mem_append_right _ List.mem_cons_self))⟩
    rw [h.holds]
    simp [World.log, htasks, Task.log, Task.abandon]
  | outside now r hr => exact absurd hr (houtside r)

/-- What has been answered stays answered. -/
theorem past_of_move {rules : Rules R} (hmove : rules.Move w w')
    (hserved : w'.IsServed g.repositories) : w.IsServed g.repositories := by
  unfold World.IsServed
  cases hmove with
  | start => exact fun t ht => hserved t (List.mem_append_left _ ht)
  | @answer front back t r next reply s' htasks =>
    rw [htasks]
    refine Task.forall_replace hserved fun e he => ?_
    exact hserved _ (List.mem_append_right _ List.mem_cons_self) e (List.mem_append_left _ he)
  | @abandon front back t htasks =>
    rw [htasks]
    exact Task.forall_replace hserved
      (hserved t.abandon (List.mem_append_right _ List.mem_cons_self))
  | outside => exact hserved

/-- Programs that abide by a regime uphold it in every world where all requests are answered
without faults. -/
theorem of_steps {rules : Rules R} (houtside : ∀ r, ¬ rules.outside r)
    (hprogram : ∀ job {s}, s.Reached → g.inv s → (R.program job).Abides g (post job) [] s)
    (hs : s.Reached) (hinv : g.inv s) (hsteps : rules.Steps { store := s } w)
    (hserved : w.IsServed g.repositories) : g.Upheld post s w := by
  induction hsteps with
  | refl => exact ⟨hs, hinv, .refl s, fun _ => rfl, fun t ht => by cases ht⟩
  | tail _ hstep ih =>
    exact (ih (past_of_move hstep.move hserved)).move houtside hprogram hstep.move hserved

end Upheld
end Regime
end CampaignControl
