import CampaignControl.Proofs.Concurrency.Requests
import CampaignControl.Proofs.Store.Intact
import CampaignControl.Rehearsal.Stage

/-!
# Passes alone

What a pass that runs alone sees of a stage is little (`Scene`): the store and its clock, what is
to be discovered, and how many work units can still be created. On a stage with no other faults
than on the creation of work units, a program comes to what it comes to in the scene
(`Stage.Calm.run`).

The rules for passes say what each request of a pass comes to (`Pass.perform`). Nobody changes the
store in between, so a change of an object takes one attempt (`Pass.perform_modify_written`).
-/

namespace CampaignControl

universe u

/-- What a program sees of a stage, and what it adds to it. -/
structure Scene where
  store : Store := {}
  /-- The repositories of each campaign. -/
  repositories : List (Key × List String) := []
  clock : Instant := .epoch
  /-- How many work units can still be created, unless there is no limit. -/
  budget : Option Nat := none
  events : List Event := []
  correlations : Nat := 0

namespace Scene

/-- The error with which the creation of a work unit fails. -/
def creationError : StoreError := .unavailable s!"injected {Kind.workUnit} create failure"

/-- Whether a request fails because no work unit can be created any more, and how many still can be
created after it. -/
def charge : StoreRequest → Option Nat → Option StoreError × Option Nat
  | .create .workUnit _, some 0 => (some creationError, some 0)
  | .create .workUnit _, some (n + 1) => (none, some n)
  | _, budget => (none, budget)

def serve (r : StoreRequest) (scene : Scene) : r.Reply × Scene :=
  match charge r scene.budget with
  | (some e, budget) => (.error e, { scene with budget })
  | (none, budget) =>
    ((Store.serve scene.clock r scene.store).1,
      { scene with budget, store := (Store.serve scene.clock r scene.store).2 })

def answer : (r : Request) → Scene → r.Reply × Scene
  | .store r, scene => scene.serve r
  | .discover campaign, scene =>
    (.ok ((Keyed.find? campaign.key scene.repositories).getD []), scene)
  | .correlate, scene =>
    (.issued (scene.correlations + 1), { scene with correlations := scene.correlations + 1 })
  | .publish event, scene => ((), { scene with events := scene.events ++ [event] })
  | .measure _, scene => ((), scene)

end Scene

/-! ## Stages -/

/-- Nothing fails but the creation of work units. -/
structure Faults.Calm (f : Faults) : Prop where
  outage : f.outage = false
  conflicts : f.conflicts = []
  creations : ∀ kind, kind ≠ .workUnit → Keyed.find? kind f.creations = none

/-- How many work units can still be created. -/
def Faults.budget (f : Faults) : Option Nat := Keyed.find? .workUnit f.creations

theorem Faults.Calm.intercept {f : Faults} (h : f.Calm) (r : StoreRequest) :
    (f.intercept r).1 = (Scene.charge r f.budget).1 ∧
      (f.intercept r).2.budget = (Scene.charge r f.budget).2 ∧ (f.intercept r).2.Calm := by
  cases r with
  | get | list | delete => exact ⟨by simp [Faults.intercept, h.outage, Scene.charge], rfl, h⟩
  | update =>
    simp only [Faults.intercept, h.outage, h.conflicts, Keyed.find?_nil, Bool.false_eq_true,
      if_false]
    exact ⟨rfl, rfl, rfl, rfl, h.creations⟩
  | create kind object =>
    simp only [Faults.intercept, h.outage, Bool.false_eq_true, if_false]
    by_cases hkind : kind = .workUnit
    · subst hkind
      unfold Faults.budget
      split
      · next hbudget =>
        exact ⟨by rw [hbudget]; rfl, by rw [hbudget]; rfl, rfl, h.conflicts, h.creations⟩
      · next hbudget =>
        exact ⟨by rw [hbudget]; rfl, by rw [hbudget]; rfl, rfl, h.conflicts, h.creations⟩
      · next n hbudget =>
        refine ⟨by rw [hbudget]; rfl, by rw [hbudget, Keyed.find?_insert, if_pos rfl]; rfl, rfl,
          h.conflicts, fun kind hne => ?_⟩
        show Keyed.find? kind (Keyed.insert _ _ _) = none
        rw [Keyed.find?_insert, if_neg (Ne.symm hne)]
        exact h.creations kind hne
    · have hcharge : Scene.charge (.create kind object) f.budget = (none, f.budget) := by
        cases kind <;> first | rfl | exact absurd rfl hkind
      rw [h.creations kind hkind, hcharge]
      exact ⟨rfl, rfl, rfl, h.conflicts, h.creations⟩

namespace Stage

/-- What a program sees of the stage. -/
def scene (stage : Stage) : Scene where
  store := stage.store
  repositories := stage.repositories
  clock := stage.clock
  budget := stage.faults.budget
  events := stage.events
  correlations := stage.correlations

/-- Nobody interferes, and nothing fails but the creation of work units. -/
structure Calm (stage : Stage) : Prop where
  rules : stage.rules = []
  discoveryFault : stage.discoveryFault = none
  mute : stage.mute = false
  faults : stage.faults.Calm

namespace Calm

variable {stage : Stage} (h : stage.Calm)
include h

theorem serve (r : StoreRequest) :
    (stage.serve r).1 = (stage.scene.serve r).1 ∧
      (stage.serve r).2.scene = (stage.scene.serve r).2 ∧ (stage.serve r).2.Calm := by
  obtain ⟨hrefused, hbudget, hcalm⟩ := h.faults.intercept r
  rw [serve_of_rules h.rules]
  unfold serveFaulty Faults.serve Scene.serve
  simp only [scene]
  generalize stage.faults.intercept r = intercepted at hrefused hbudget hcalm
  generalize Scene.charge r stage.faults.budget = charged at hrefused hbudget
  obtain ⟨refused, faults⟩ := intercepted
  obtain ⟨refused', budget⟩ := charged
  cases hrefused
  cases hbudget
  cases refused with
  | none => exact ⟨rfl, rfl, h.rules, h.discoveryFault, h.mute, hcalm⟩
  | some e => exact ⟨rfl, rfl, h.rules, h.discoveryFault, h.mute, hcalm⟩

theorem answer (r : Request) :
    (Stage.answer Stage.serve r stage).1 = (stage.scene.answer r).1 ∧
      (Stage.answer Stage.serve r stage).2.scene = (stage.scene.answer r).2 ∧
      (Stage.answer Stage.serve r stage).2.Calm := by
  cases r with
  | store r => exact h.serve r
  | discover campaign =>
    refine ⟨?_, rfl, h⟩
    show stage.discover campaign = _
    unfold discover
    rw [h.discoveryFault]
    rfl
  | correlate =>
    exact ⟨rfl, rfl, h.rules, h.discoveryFault, h.mute, h.faults⟩
  | publish event =>
    have hheard : Stage.answer Stage.serve (.publish event) stage =
        ((), { stage with events := stage.events ++ [event] }) := by
      simp [Stage.answer, h.mute]
    rw [hheard]
    exact ⟨rfl, rfl, h.rules, h.discoveryFault, h.mute, h.faults⟩
  | measure =>
    exact ⟨rfl, rfl, h.rules, h.discoveryFault, h.mute, h.faults⟩

/-- A program comes to the same on a calm stage as in its scene. -/
theorem run {α : Type} (p : Program α) :
    (stage.run p).1 = (p.run Scene.answer stage.scene).1 ∧
      (stage.run p).2.scene = (p.run Scene.answer stage.scene).2 ∧ (stage.run p).2.Calm := by
  unfold Stage.run
  induction p generalizing stage with
  | done a => exact ⟨rfl, rfl, h⟩
  | ask r next ih =>
    obtain ⟨hreply, hscene, hcalm⟩ := h.answer r
    simp only [Program.run_ask]
    rw [hreply, ← hscene]
    exact ih _ hcalm

end Calm
end Stage

/-! ## Passes -/

namespace Pass

variable {α β γ : Type} {scene after : Scene}

/-- What a pass comes to in a scene. -/
def perform (p : Pass γ) (scene : Scene) : Except Error γ × Scene :=
  Program.run Scene.answer p.run scene

theorem perform_bind_ok {δ : Type} {p : Pass γ} {f : γ → Pass δ} {a : γ}
    (h : p.perform scene = (.ok a, after)) : (p >>= f).perform scene = (f a).perform after := by
  unfold perform at h ⊢
  rw [ExceptT.run_bind, Program.run_bind, h]

theorem perform_bind_error {δ : Type} {p : Pass γ} {f : γ → Pass δ} {e : Error}
    (h : p.perform scene = (.error e, after)) : (p >>= f).perform scene = (.error e, after) := by
  unfold perform at h ⊢
  rw [ExceptT.run_bind, Program.run_bind, h]
  rfl

theorem perform_lift (p : Program γ) (scene : Scene) :
    (Pass.lift p).perform scene =
      (.ok (p.run Scene.answer scene).1, (p.run Scene.answer scene).2) := by
  unfold perform
  rw [Pass.lift, ExceptT.run_lift, map_eq_pure_bind, Program.run_bind]
  rfl

theorem perform_outcome (p : Pass γ) (scene : Scene) :
    (Pass.outcome p).perform scene = (.ok (p.perform scene).1, (p.perform scene).2) :=
  perform_lift p.run scene

theorem perform_ofStore (reply : Except StoreError γ) (scene : Scene) :
    (Pass.ofStore reply).perform scene = (reply.mapError Error.store, scene) := by
  cases reply <;> rfl

theorem perform_measure (m : Measurement) (scene : Scene) :
    (Pass.measure m).perform scene = (.ok (), scene) := rfl

theorem perform_publish (e : Event) (scene : Scene) :
    (Pass.publish e).perform scene = (.ok (), { scene with events := scene.events ++ [e] }) := rfl

theorem perform_correlate (scene : Scene) :
    Pass.correlate.perform scene = (.ok (.issued (scene.correlations + 1)),
      { scene with correlations := scene.correlations + 1 }) := rfl

theorem perform_discover (campaign : Campaign) (scene : Scene) :
    (Pass.lift (.request (.discover campaign))).perform scene =
      (.ok (.ok ((Keyed.find? campaign.key scene.repositories).getD [])), scene) := rfl

theorem perform_delete (kind : Kind) (key : Key) (scene : Scene) :
    (Pass.lift (Pass.delete kind key)).perform scene =
      (.ok (scene.store.delete scene.clock kind key .background).1,
        { scene with store := (scene.store.delete scene.clock kind key .background).2 }) := rfl

/-- A program finds the same repositories all the time. -/
theorem repositories_run {δ : Type} (p : Program δ) (scene : Scene) :
    (p.run Scene.answer scene).2.repositories = scene.repositories := by
  induction p generalizing scene with
  | done => rfl
  | ask r next ih =>
    refine (ih _ _).trans ?_
    cases r with
    | store r =>
      show (scene.serve r).2.repositories = _
      unfold Scene.serve
      split <;> rfl
    | discover | correlate | publish | measure => rfl

/-- The store of a scene has been built by requests, and so is the one that a program leaves. -/
theorem perform_reached (p : Pass γ) (h : scene.store.Reached) :
    (p.perform scene).2.store.Reached := by
  suffices ∀ {α : Type} (p : Program α) {scene : Scene}, scene.store.Reached →
      (p.run Scene.answer scene).2.store.Reached from this p.run h
  intro α p
  induction p with
  | done => exact id
  | ask r next ih =>
    intro scene h
    refine ih _ ?_
    cases r with
    | store r =>
      show (scene.serve r).2.store.Reached
      unfold Scene.serve
      split
      · exact h
      · exact h.serve ..
    | discover | correlate | publish | measure => exact h

section resource

variable [Resource α] {key : Key}

theorem perform_find? (key : Key) (scene : Scene) :
    (find? key : Pass (Option α)).perform scene =
      (found? (scene.store.get (Resource.kind α) key), scene) := by
  unfold perform
  rw [run_find?]
  rfl

theorem perform_list (filter : Filter) (scene : Scene) :
    (list filter : Pass (List α)).perform scene =
      (((scene.store.list (Resource.kind α) filter).mapM Resource.decode).mapError Error.store,
        scene) := perform_ofStore _ scene

/-! ### Reading -/

theorem perform_find?_none
    (hnone : scene.store.find? { kind := Resource.kind α, key } = none) :
    (find? key : Pass (Option α)).perform scene = (.ok none, scene) := by
  rw [perform_find?, Store.get, hnone]
  rfl

theorem perform_find?_ok {object : Object} {a : α}
    (found : scene.store.find? { kind := Resource.kind α, key } = some object)
    (hdecode : Resource.decode object = .ok a) :
    (find? key : Pass (Option α)).perform scene = (.ok (some a), scene) := by
  rw [perform_find?, Store.get, found]
  simp only [found?, hdecode]

theorem perform_find?_error {object : Object} {e : StoreError}
    (found : scene.store.find? { kind := Resource.kind α, key } = some object)
    (hdecode : (Resource.decode object : Except StoreError α) = .error e) :
    (find? key : Pass (Option α)).perform scene = (.error (.store e), scene) := by
  rw [perform_find?, Store.get, found]
  simp only [found?, hdecode]

/-! ### Creating -/

variable [LawfulResource α] {a : α} {budget : Option Nat}

omit [LawfulResource α] in
theorem perform_create (a : α) (scene : Scene) :
    (Pass.lift (Pass.create a)).perform scene =
      (.ok (decoded (scene.serve (.create (Resource.kind α) (Resource.encode a))).1),
        (scene.serve (.create (Resource.kind α) (Resource.encode a))).2) := rfl

omit [LawfulResource α] in
theorem perform_create_refused {e : StoreError}
    (hcharge : Scene.charge (.create (Resource.kind α) (Resource.encode a)) scene.budget =
      (some e, budget)) :
    (Pass.lift (Pass.create a)).perform scene = (.ok (.error e), { scene with budget }) := by
  rw [perform_create]
  unfold Scene.serve
  rw [hcharge]
  rfl

theorem perform_create_none
    (hcharge : Scene.charge (.create (Resource.kind α) (Resource.encode a)) scene.budget =
      (none, budget))
    (hnone : scene.store.find? (Resource.slot a) = none) :
    (Pass.lift (Pass.create a)).perform scene =
      (.ok (.ok (Resource.setMetadata
          (scene.store.newborn scene.clock (Resource.encode a)).metadata a)),
        { scene with
          budget
          store := scene.store.withNew scene.clock (Resource.slot a) (Resource.encode a) }) := by
  have hserve : Store.serve scene.clock (.create (Resource.kind α) (Resource.encode a))
      scene.store = _ := Store.create_of_find?_none scene.clock hnone
  rw [perform_create]
  unfold Scene.serve
  rw [hcharge]
  dsimp only
  rw [hserve]
  rw [decoded_newborn]
  rfl

omit [LawfulResource α] in
theorem perform_create_some {object : Object}
    (hcharge : Scene.charge (.create (Resource.kind α) (Resource.encode a)) scene.budget =
      (none, budget))
    (found : scene.store.find? (Resource.slot a) = some object) :
    (Pass.lift (Pass.create a)).perform scene =
      (.ok (.error (.alreadyExists (Resource.kind α) (Resource.key a))),
        { scene with budget }) := by
  have hserve : Store.serve scene.clock (.create (Resource.kind α) (Resource.encode a))
      scene.store = _ := Store.create_of_find?_some scene.clock found
  rw [perform_create]
  unfold Scene.serve
  rw [hcharge]
  dsimp only
  rw [hserve]
  rfl

/-! ### Changing -/

omit [LawfulResource α] in
theorem perform_modify (key : Key) (attempts : Nat) (change : α → α × Option β) (scene : Scene) :
    (modify key attempts change).perform scene =
      (afterRead key (fun _ => change) (max attempts 1) (max attempts 1 - 1)
        (scene.store.get (Resource.kind α) key)).run Scene.answer scene := by
  unfold perform
  rw [run_modify]
  rfl

variable {attempts : Nat} {change : α → α × Option β} {object : Object} {current changed : α}

omit [LawfulResource α] in
theorem perform_modify_none
    (hnone : scene.store.find? { kind := Resource.kind α, key } = none) :
    (modify key attempts change).perform scene = (.ok none, scene) := by
  rw [perform_modify, Store.get, hnone]
  rfl

omit [LawfulResource α] in
theorem perform_modify_error {e : StoreError}
    (found : scene.store.find? { kind := Resource.kind α, key } = some object)
    (hdecode : (Resource.decode object : Except StoreError α) = .error e) :
    (modify key attempts change).perform scene = (.error (.store e), scene) := by
  rw [perform_modify, Store.get, found]
  simp only [afterRead, found?, hdecode]
  rfl

omit [LawfulResource α] in
theorem perform_modify_same {same : α}
    (found : scene.store.find? { kind := Resource.kind α, key } = some object)
    (hdecode : Resource.decode object = .ok current) (hchange : change current = (same, none)) :
    (modify key attempts change).perform scene = (.ok (some (same, none)), scene) := by
  rw [perform_modify, Store.get, found]
  simp only [afterRead, found?, hdecode, hchange]
  rfl

/-- What is written back takes the place of what has been read. -/
theorem perform_modify_written {note : β} (hs : scene.store.Sound)
    (found : scene.store.find? { kind := Resource.kind α, key } = some object)
    (hdecode : Resource.decode object = .ok current)
    (hchange : change current = (changed, some note)) (hkeeps : KeepsPlace change)
    (hheld : object.metadata.isDeleting → (Resource.metadata changed).finalizers ≠ []) :
    (modify key attempts change).perform scene =
      (.ok (some (Resource.setMetadata
          (scene.store.revised object (Resource.encode changed)).metadata changed, some note)),
        { scene with
          store := scene.store.withRevised { kind := Resource.kind α, key } object
            (Resource.encode changed) }) := by
  obtain ⟨hkey, hversion⟩ := hkeeps hchange
  rw [Resource.metadata_of_decode hdecode] at hkey hversion
  have hserve : Store.serve scene.clock (.update (Resource.kind α) (Resource.encode changed))
      scene.store = _ :=
    Store.update_of_held scene.clock found (hkey.trans (hs.key_eq found)) hversion hheld
  rw [perform_modify, Store.get, found]
  simp only [afterRead, found?, hdecode, hchange, Program.run_ask]
  show (afterWrite key _ _ _ note
      (scene.serve (.update (Resource.kind α) (Resource.encode changed))).1).run Scene.answer
    (scene.serve (.update (Resource.kind α) (Resource.encode changed))).2 = _
  simp only [Scene.serve, Scene.charge]
  rw [hserve]
  rw [afterWrite_revised]
  rfl

end resource
end Pass
end CampaignControl
