import CampaignControl.Proofs.Concurrency.Requests
import CampaignControl.Proofs.Rehearsal.Scene

/-!
# The budget of conflicts

A change that always has something to write goes on over conflicts as long as it has attempts left.
Where fewer conflicts are injected than it has attempts, it takes one more attempt than there are
conflicts and writes once; otherwise it uses up all its attempts and as many conflicts, and writes
nothing (`Stage.conflict_budget`). What is left of the conflicts meets the changes that follow.

A conflict also comes of a mutation that changes the version of the object, and of one that changes
its key the object is not found (`Stage.mutation_out_of_place`).
-/

namespace CampaignControl

/-! ## Faults -/

namespace Faults

variable {f f' f'' : Faults} {kind : Kind} {n refused refused' calls calls' : Nat} {object : Object}

/-- How many changes of a kind are still refused. -/
def remaining (f : Faults) (kind : Kind) : Nat := (Keyed.find? kind f.conflicts).getD 0

@[simp] theorem remaining_injectConflicts (f : Faults) (kind : Kind) (n : Nat) :
    (f.injectConflicts kind n).remaining kind = n := by
  rw [remaining, injectConflicts, Keyed.find?_insert, if_pos rfl, Option.getD_some]

/-- So many changes of a kind have been asked for, and so many of them have been refused. -/
structure Spent (kind : Kind) (refused calls : Nat) (f f' : Faults) : Prop where
  remaining : f'.remaining kind + refused = f.remaining kind
  other : ∀ other, other ≠ kind → f'.remaining other = f.remaining other
  updateCalls : f'.updateCalls = f.updateCalls + calls
  createCalls : f'.createCalls = f.createCalls
  creations : f'.creations = f.creations
  outage : f'.outage = f.outage

namespace Spent

theorem refl (kind : Kind) (f : Faults) : f.Spent kind 0 0 f :=
  ⟨rfl, fun _ _ => rfl, rfl, rfl, rfl, rfl⟩

theorem trans (h : f.Spent kind refused calls f') (h' : f'.Spent kind refused' calls' f'') :
    f.Spent kind (refused + refused') (calls + calls') f'' where
  remaining := by
    have := h.remaining
    have := h'.remaining
    omega
  other other hne := (h'.other other hne).trans (h.other other hne)
  updateCalls := by rw [h'.updateCalls, h.updateCalls, Nat.add_assoc]
  createCalls := h'.createCalls.trans h.createCalls
  creations := h'.creations.trans h.creations
  outage := h'.outage.trans h.outage

end Spent

theorem intercept_of_remaining_eq_zero (houtage : f.outage = false) (hnone : f.remaining kind = 0)
    (object : Object) : ∃ f', f.intercept (.update kind object) = (none, f') ∧
      f.Spent kind 0 1 f' := by
  refine ⟨{ f with updateCalls := f.updateCalls + 1 }, ?_,
    rfl, fun _ _ => rfl, rfl, rfl, rfl, rfl⟩
  simp only [intercept, houtage, Bool.false_eq_true, if_false]
  split
  · next n hfind =>
    rw [remaining, hfind] at hnone
    cases hnone
  · rfl

theorem intercept_of_remaining_eq_succ (houtage : f.outage = false)
    (hmore : f.remaining kind = n + 1) (object : Object) :
    ∃ e f', f.intercept (.update kind object) = (some e, f') ∧ e.isConflict ∧
      f.Spent kind 1 1 f' := by
  have hfind : Keyed.find? kind f.conflicts = some (n + 1) := by
    rw [remaining] at hmore
    cases hfind : Keyed.find? kind f.conflicts with
    | none =>
      rw [hfind] at hmore
      cases hmore
    | some count =>
      rw [hfind] at hmore
      exact congrArg some hmore
  simp only [intercept, houtage, Bool.false_eq_true, if_false, hfind]
  refine ⟨_, _, rfl, rfl, ?_, fun other hne => ?_, rfl, rfl, rfl, houtage.symm⟩
  · exact (congrArg (· + 1) (remaining_injectConflicts f kind n)).trans hmore.symm
  · show (Keyed.find? other (Keyed.insert kind n f.conflicts)).getD 0 = _
    rw [Keyed.find?_insert, if_neg (Ne.symm hne)]
    rfl

end Faults

/-! ## Attempts -/

namespace Pass

variable {α β : Type} [Resource α]

/-- A mutation that always reports a change, with a note on it. In each attempt it may do something
else. -/
def always (mutate : Nat → α → α × β) (left : Nat) (a : α) : α × Option β :=
  ((mutate left a).1, some (mutate left a).2)

/-- A change by a mutation that always reports one. -/
def mutateBy (key : Key) (attempts : Nat) (mutate : Nat → α → α × β) :
    Program (Except Error (Option (α × Option β))) :=
  (modifyBy key attempts (always mutate)).run

end Pass

namespace Stage

open Pass

variable {α β : Type} [Resource α] {stage : Stage} {kind : Kind} {key : Key} {n attempts left : Nat}
  {object : Object} {current : α} {mutate : Nat → α → α × β}

/-- Nobody interferes, and the store can be used. -/
structure Undisturbed (stage : Stage) : Prop where
  rules : stage.rules = []
  outage : stage.faults.outage = false

namespace Undisturbed

theorem serve_get (h : stage.Undisturbed) (kind : Kind) (key : Key) :
    stage.serve (.get kind key) = (stage.store.get kind key, stage) := by
  rw [serve_of_rules h.rules]
  simp [serveFaulty, Faults.serve, Faults.intercept, h.outage, Store.serve]

theorem serve_passed (h : stage.Undisturbed) (hnone : stage.faults.remaining kind = 0)
    (object : Object) : ∃ f', stage.faults.Spent kind 0 1 f' ∧
      stage.serve (.update kind object) = ((stage.store.update stage.clock kind object).1,
        { stage with faults := f', store := (stage.store.update stage.clock kind object).2 }) := by
  obtain ⟨f', hintercept, hspent⟩ :=
    Faults.intercept_of_remaining_eq_zero h.outage hnone object
  refine ⟨f', hspent, ?_⟩
  rw [serve_of_rules h.rules]
  simp only [serveFaulty, Faults.serve, hintercept, Store.serve]

theorem serve_refused (h : stage.Undisturbed) (hmore : stage.faults.remaining kind = n + 1)
    (object : Object) : ∃ e f', e.isConflict ∧ stage.faults.Spent kind 1 1 f' ∧
      stage.serve (.update kind object) = (.error e, { stage with faults := f' }) := by
  obtain ⟨e, f', hintercept, hconflict, hspent⟩ :=
    Faults.intercept_of_remaining_eq_succ h.outage hmore object
  refine ⟨e, f', hconflict, hspent, ?_⟩
  rw [serve_of_rules h.rules]
  simp only [serveFaulty, Faults.serve, hintercept]

theorem withFaults (h : stage.Undisturbed) {f' : Faults} {refused calls : Nat}
    (hspent : stage.faults.Spent kind refused calls f') :
    Undisturbed { stage with faults := f' } := ⟨h.rules, hspent.outage.trans h.outage⟩

end Undisturbed

section
variable (h : stage.Undisturbed)
  (found : stage.store.find? { kind := Resource.kind α, key } = some object)
  (hdecode : Resource.decode object = .ok current)
include h found hdecode

/-- An attempt writes what the mutation makes of the object, and goes on with the answer. -/
theorem run_attempt {stage' : Stage} {reply : Except StoreError Object} (attempts : Nat)
    (hserve : stage.serve (.update (Resource.kind α) (Resource.encode (mutate left current).1)) =
      (reply, stage')) :
    stage.run (modifyWithin key (always mutate) attempts (left + 1)).run =
      stage'.run
        (afterWrite key (always mutate) attempts left (mutate left current).2 reply) := by
  have hread : stage.serve (.get (Resource.kind α) key) = (.ok object, stage) := by
    rw [h.serve_get, Store.get, found]
  unfold Stage.run
  rw [run_modifyWithin_succ, Program.run_ask, Stage.answer, hread]
  simp only [afterRead, found?, hdecode, always, Program.run_ask, Stage.answer, hserve]

/-- Where there are conflicts for all attempts, all attempts are refused. -/
theorem run_exhausted (mutate : Nat → α → α × β) (attempts : Nat)
    (hmore : left ≤ stage.faults.remaining (Resource.kind α)) :
    ∃ f', stage.faults.Spent (Resource.kind α) left left f' ∧
      stage.run (modifyWithin key (always mutate) attempts left).run =
        (.error (.retriesExhausted key attempts), { stage with faults := f' }) := by
  induction left generalizing stage with
  | zero => exact ⟨stage.faults, .refl .., rfl⟩
  | succ left ih =>
    obtain ⟨n, hn⟩ := Nat.exists_eq_add_of_le' (Nat.le_trans (Nat.le_add_left 1 left) hmore)
    obtain ⟨e, f₁, hconflict, hspent₁, hserve⟩ :=
      h.serve_refused hn (Resource.encode (mutate left current).1)
    have hleft : left ≤ f₁.remaining (Resource.kind α) := by
      have := hspent₁.remaining
      omega
    obtain ⟨f', hspent, hrun⟩ := ih (h.withFaults hspent₁) found hleft
    refine ⟨f', Nat.add_comm 1 left ▸ hspent₁.trans hspent, ?_⟩
    rw [run_attempt h found hdecode attempts hserve, afterWrite_of_isConflict _ _ _ _ hconflict]
    exact hrun

/-- Where there are more attempts than conflicts, the first attempt after them writes. -/
theorem run_applied [LawfulResource α] (hs : stage.store.Sound)
    (hkeeps : ∀ i, KeepsPlace (always mutate i)) (attempts left : Nat)
    (hn : stage.faults.remaining (Resource.kind α) = n) :
    ∃ f', stage.faults.Spent (Resource.kind α) n (n + 1) f' ∧
      stage.run (modifyWithin key (always mutate) attempts (left + 1 + n)).run =
        (.ok (some (Resource.setMetadata (stage.store.revised object
            (Resource.encode (mutate left current).1)).metadata (mutate left current).1,
            some (mutate left current).2)),
          { stage with
            faults := f'
            store := (stage.store.update stage.clock (Resource.kind α)
              (Resource.encode (mutate left current).1)).2 }) := by
  induction n generalizing stage with
  | zero =>
    obtain ⟨hkey, hversion⟩ := hkeeps left (show always mutate left current = _ from rfl)
    rw [Resource.metadata_of_decode hdecode] at hkey hversion
    have hplace : (Resource.encode (mutate left current).1).key = key :=
      hkey.trans (hs.key_eq found)
    obtain ⟨s', hupdate, -⟩ :=
      Store.update_of_version_eq stage.clock (hplace.symm ▸ found) hversion.symm
    obtain ⟨f', hspent, hserve⟩ :=
      h.serve_passed hn (Resource.encode (mutate left current).1)
    refine ⟨f', hspent, ?_⟩
    rw [hupdate] at hserve
    rw [Nat.add_zero, run_attempt h found hdecode attempts hserve, hupdate, afterWrite_revised]
    rfl
  | succ n ih =>
    obtain ⟨e, f₁, hconflict, hspent₁, hserve⟩ :=
      h.serve_refused hn (Resource.encode (mutate (left + 1 + n) current).1)
    have hleft : f₁.remaining (Resource.kind α) = n := by
      have := hspent₁.remaining
      omega
    obtain ⟨f', hspent, hrun⟩ := ih (h.withFaults hspent₁) found hs hleft
    refine ⟨f', ?_, ?_⟩
    · have hboth := hspent₁.trans hspent
      rwa [Nat.add_comm 1 n, Nat.add_comm 1 (n + 1)] at hboth
    · rw [← Nat.add_assoc, run_attempt h found hdecode attempts hserve,
        afterWrite_of_isConflict _ _ _ _ hconflict]
      exact hrun

end

/-! ## Calls -/

/-- Runs programs one after the other, each at its own time. -/
def runAll {γ : Type} : List (Instant × Program γ) → Stage → List γ × Stage
  | [], stage => ([], stage)
  | (clock, p) :: rest, stage =>
    let (result, stage) := run p { stage with clock }
    let (results, stage) := runAll rest stage
    (result :: results, stage)

/-- A change has been refused in all of its attempts, and nothing has been written. -/
structure Exhausted {γ : Type} (key : Key) (kind : Kind) (attempts : Nat) (stage : Stage)
    (outcome : Except Error γ × Stage) : Prop where
  result : outcome.1 = .error (.retriesExhausted key attempts)
  faults : stage.faults.Spent kind attempts attempts outcome.2.faults
  rest : outcome.2 = { stage with faults := outcome.2.faults }

/-- A change has been refused so many times, and then something has been written in place of the
object, in one request. -/
structure Applied (object : Object) (refused : Nat) (written : α × β) (stage : Stage)
    (outcome : Except Error (Option (α × Option β)) × Stage) : Prop where
  result : outcome.1 = .ok (some (Resource.setMetadata
    (stage.store.revised object (Resource.encode written.1)).metadata written.1, some written.2))
  faults : stage.faults.Spent (Resource.kind α) refused (refused + 1) outcome.2.faults
  store : outcome.2.store = (stage.store.update stage.clock (Resource.kind α)
    (Resource.encode written.1)).2
  /-- The object is replaced unless it was to be deleted and has lost its last finalizer. -/
  held : (object.metadata.isDeleting → (Resource.metadata written.1).finalizers ≠ []) →
    outcome.2.store = stage.store.withRevised
      { kind := Resource.kind α, key := object.key } object (Resource.encode written.1)
  rest : outcome.2 = { stage with faults := outcome.2.faults, store := outcome.2.store }

section
variable (h : stage.Undisturbed)
  (found : stage.store.find? { kind := Resource.kind α, key } = some object)
  (hdecode : Resource.decode object = .ok current)
include h found hdecode

theorem exhausted (mutate : Nat → α → α × β) {m : Nat}
    (hmore : max m 1 ≤ stage.faults.remaining (Resource.kind α)) :
    Exhausted key (Resource.kind α) (max m 1) stage (stage.run (mutateBy key m mutate)) := by
  obtain ⟨f', hspent, hrun⟩ := run_exhausted h found hdecode mutate (max m 1) hmore
  have hcall : stage.run (mutateBy key m mutate) = _ := hrun
  rw [hcall]
  exact ⟨rfl, hspent, rfl⟩

theorem applied [LawfulResource α] (hs : stage.store.Sound)
    (hkeeps : ∀ i, KeepsPlace (always mutate i)) {m : Nat}
    (hless : stage.faults.remaining (Resource.kind α) < max m 1) :
    Applied object (stage.faults.remaining (Resource.kind α))
      (mutate (max m 1 - 1 - stage.faults.remaining (Resource.kind α)) current) stage
      (stage.run (mutateBy key m mutate)) := by
  generalize hn : stage.faults.remaining (Resource.kind α) = n at hless ⊢
  obtain ⟨f', hspent, hrun⟩ :=
    run_applied h found hdecode hs hkeeps (max m 1) (max m 1 - 1 - n) hn
  have hattempts : max m 1 - 1 - n + 1 + n = max m 1 := by omega
  rw [hattempts] at hrun
  have hcall : stage.run (mutateBy key m mutate) = _ := hrun
  rw [hcall]
  refine ⟨rfl, hspent, rfl, fun hheld => ?_, rfl⟩
  obtain ⟨hkey, hversion⟩ :=
    hkeeps (max m 1 - 1 - n) (show always mutate _ current = _ from rfl)
  rw [Resource.metadata_of_decode hdecode] at hkey hversion
  obtain rfl : object.key = key := hs.key_eq found
  exact congrArg Prod.snd (Store.update_of_held stage.clock found
    (show (Resource.encode (mutate (max m 1 - 1 - n) current).1).key = object.key from hkey)
    hversion hheld)

/-- One change after the other is refused as long as there are conflicts for all of their
attempts. -/
theorem runAll_exhausted (mutate : Nat → α → α × β) (calls : List (Instant × Nat))
    (hmore : (calls.map fun c => max c.2 1).sum ≤ stage.faults.remaining (Resource.kind α)) :
    ∃ f' clock, stage.faults.Spent (Resource.kind α) (calls.map fun c => max c.2 1).sum
        (calls.map fun c => max c.2 1).sum f' ∧
      stage.runAll (calls.map fun c => (c.1, mutateBy key c.2 mutate)) =
        (calls.map fun c => .error (.retriesExhausted key (max c.2 1)),
          { stage with faults := f', clock }) := by
  induction calls generalizing stage with
  | nil => exact ⟨stage.faults, stage.clock, .refl .., rfl⟩
  | cons call rest ih =>
    rw [List.map_cons, List.sum_cons] at hmore
    have hclock : Undisturbed { stage with clock := call.1 } := ⟨h.rules, h.outage⟩
    obtain ⟨f₁, hspent₁, hrun⟩ := run_exhausted hclock found hdecode mutate (max call.2 1)
      (Nat.le_trans (Nat.le_add_right ..) hmore)
    have hleft : (rest.map fun c => max c.2 1).sum ≤ f₁.remaining (Resource.kind α) := by
      have hspent : f₁.remaining (Resource.kind α) + max call.2 1 =
        stage.faults.remaining (Resource.kind α) := hspent₁.remaining
      omega
    obtain ⟨f', clock, hspent, hrest⟩ := ih (hclock.withFaults hspent₁) found hleft
    have hfirst : run (mutateBy key call.2 mutate) { stage with clock := call.1 } = _ := hrun
    refine ⟨f', clock, ?_, ?_⟩
    · rw [List.map_cons, List.sum_cons]
      exact Faults.Spent.trans hspent₁ hspent
    · rw [List.map_cons, List.map_cons, runAll, hfirst]
      dsimp only
      rw [hrest]

/-- **The budget of conflicts.** So many conflicts are injected for the kind of an object that is
stored and can be read, and it is changed by a mutation that always reports a change. If there are
conflicts for all attempts, the change fails in the end with the number of its attempts, each of
which has used up one conflict, and nothing else has happened. Otherwise the first attempt after the
conflicts writes once, as long as the mutation leaves the key and the version of the object alone.
Changes that fail leave the rest of the conflicts to the next ones, and the first that has more
attempts than there are conflicts left writes once, and no other does. -/
theorem conflict_budget [LawfulResource α] (hs : stage.store.Sound) (mutate : Nat → α → α × β)
    (n : Nat) :
    let start : Stage :=
      { stage with faults := stage.faults.injectConflicts (Resource.kind α) n }
    start.faults.remaining (Resource.kind α) = n ∧
    (∀ m, max m 1 ≤ n →
      Exhausted key (Resource.kind α) (max m 1) start (start.run (mutateBy key m mutate))) ∧
    ((∀ i, KeepsPlace (always mutate i)) → ∀ m, n < max m 1 →
      Applied object n (mutate (max m 1 - 1 - n) current) start
        (start.run (mutateBy key m mutate))) ∧
    ∀ calls : List (Instant × Nat), (calls.map fun c => max c.2 1).sum ≤ n →
      let left := n - (calls.map fun c => max c.2 1).sum
      let failed := start.runAll (calls.map fun c => (c.1, mutateBy key c.2 mutate))
      failed.1 = calls.map (fun c => .error (.retriesExhausted key (max c.2 1))) ∧
      failed.2.store = stage.store ∧ failed.2.faults.remaining (Resource.kind α) = left ∧
      ((∀ i, KeepsPlace (always mutate i)) → ∀ (clock : Instant) (m : Nat), left < max m 1 →
        let next : Stage := { failed.2 with clock }
        Applied object left (mutate (max m 1 - 1 - left) current) next
          (next.run (mutateBy key m mutate)) ∧
        start.faults.Spent (Resource.kind α) n (n + 1)
          (next.run (mutateBy key m mutate)).2.faults) := by
  intro start
  have hn : start.faults.remaining (Resource.kind α) = n := Faults.remaining_injectConflicts ..
  have hstart : start.Undisturbed := ⟨h.rules, h.outage⟩
  refine ⟨hn, fun m hmore => exhausted hstart found hdecode mutate (hn ▸ hmore),
    fun hkeeps m hless => ?_, fun calls hmore => ?_⟩
  · have happlied := applied hstart found hdecode hs hkeeps (m := m) (hn ▸ hless)
    rwa [hn] at happlied
  · intro left failed
    obtain ⟨f', clock', hspent, hrun⟩ :=
      runAll_exhausted hstart found hdecode mutate calls (hn ▸ hmore)
    have hfailed : failed = _ := hrun
    have hleft : f'.remaining (Resource.kind α) = left := by
      have := hspent.remaining
      omega
    rw [hfailed]
    refine ⟨rfl, rfl, hleft, fun hkeeps clock m hless => ?_⟩
    intro next
    have hnext : next.Undisturbed := ⟨h.rules, hspent.outage.trans h.outage⟩
    have happlied := applied hnext found hdecode hs hkeeps (m := m)
      (show f'.remaining (Resource.kind α) < max m 1 from hleft ▸ hless)
    have hsame : next.faults.remaining (Resource.kind α) = left := hleft
    rw [hsame] at happlied
    refine ⟨happlied, ?_⟩
    have hboth := hspent.trans happlied.faults
    rwa [← Nat.add_assoc, Nat.add_sub_of_le hmore] at hboth

end

/-- A campaign with one repository for each worker. -/
def sampleWeekly : Campaign where
  metadata := { key := { space := "maint", name := "weekly" } }
  spec := { policy := { strategy := .fixedBatchSize, batchSize := 1, parallelism := 1 } }

/-- The campaign in a store. -/
def sampleStage : Stage where
  store := ({} : Store).serveAll [(.epoch, .create .campaign (Resource.encode sampleWeekly))]

def suspending (_ : Nat) (c : Campaign) : Campaign × Unit :=
  ({ c with spec := { c.spec with suspended := true } }, ())

/-- Of seven conflicts the first change uses up five, and the second one writes in its third
attempt. -/
theorem conflict_budget_sample :
    let start : Stage :=
      { sampleStage with faults := sampleStage.faults.injectConflicts .campaign 7 }
    let failed := start.runAll [(.epoch, mutateBy sampleWeekly.key 5 suspending)]
    let last := failed.2.run (mutateBy sampleWeekly.key 5 suspending)
    sampleStage.Undisturbed ∧ sampleStage.store.Sound ∧
    (∀ i, KeepsPlace (always suspending i)) ∧ max 5 1 ≤ 7 ∧ 7 - max 5 1 < max 5 1 ∧
    ∃ (o : Object) (c : Campaign),
      sampleStage.store.find? { kind := .campaign, key := sampleWeekly.key } = some o ∧
      Resource.decode o = .ok c ∧ failed.1 = [.error (.retriesExhausted sampleWeekly.key 5)] ∧
      failed.2.store = sampleStage.store ∧ Applied o 2 (suspending 2 c) failed.2 last ∧
      last.2.faults.updateCalls = 8 := by
  intro start failed last
  have h : sampleStage.Undisturbed := ⟨rfl, rfl⟩
  have hreached : sampleStage.store.Reached := ⟨_, rfl⟩
  have hs : sampleStage.store.Sound := hreached.intact.toSound
  have hkeeps : ∀ i, KeepsPlace (always suspending i) := fun _ => .of_metadata fun _ => rfl
  have hfirst : max 5 1 ≤ 7 := by decide
  have hsecond : 7 - max 5 1 < max 5 1 := by decide
  let o : Object := ({} : Store).newborn .epoch (Resource.encode sampleWeekly)
  have found : sampleStage.store.find? { kind := .campaign, key := sampleWeekly.key } = some o :=
    rfl
  have hdecode : Resource.decode o = .ok (Resource.setMetadata o.metadata sampleWeekly) :=
    Resource.decode_stored _ sampleWeekly
  obtain ⟨-, -, -, hcalls⟩ := conflict_budget h found hdecode hs suspending 7
  obtain ⟨hresult, hstore, -, hnext⟩ := hcalls [(.epoch, 5)] hfirst
  obtain ⟨happlied, hspent⟩ := hnext hkeeps .epoch 5 hsecond
  exact ⟨h, hs, hkeeps, hfirst, hsecond, o, _, found, hdecode, hresult, hstore, happlied,
    hspent.updateCalls⟩

/-- A mutation that changes the version of the campaign. -/
def restamping (_ : Nat) (c : Campaign) : Campaign × Unit :=
  (Resource.mapMetadata (fun m => { m with version := 7 }) c, ())

/-- A mutation that changes the key of the campaign. -/
def rekeying (_ : Nat) (c : Campaign) : Campaign × Unit :=
  (Resource.mapMetadata (fun m => { m with key := { m.key with name := "daily" } }) c, ())

/-- A campaign in a store that is without the fields of one. -/
def sampleBlank : Stage where
  store := ({} : Store).serveAll
    [(.epoch, .create .campaign { metadata := sampleWeekly.metadata, body := [] })]

/-- Where no conflicts are injected, one attempt is not enough for a mutation that changes the
version or the key, nor for an object that cannot be read: there is a conflict, or nothing to
replace, or nothing to mutate. -/
theorem mutation_out_of_place :
    let unopposed (stage : Stage) : Stage :=
      { stage with faults := stage.faults.injectConflicts .campaign 0 }
    let slot : Slot := { kind := .campaign, key := sampleWeekly.key }
    (sampleStage.Undisturbed ∧ sampleStage.store.Reached ∧ sampleStage.store.find? slot ≠ none) ∧
    (sampleBlank.Undisturbed ∧ sampleBlank.store.Reached ∧ sampleBlank.store.find? slot ≠ none) ∧
    ((unopposed sampleStage).run (mutateBy sampleWeekly.key 1 restamping)).1 =
      .error (.retriesExhausted sampleWeekly.key 1) ∧
    ((unopposed sampleStage).run (mutateBy sampleWeekly.key 1 rekeying)).1 = .ok none ∧
    ∃ reason, ((unopposed sampleBlank).run (mutateBy sampleWeekly.key 1 suspending)).1 =
      .error (.store (.codec .campaign reason)) := by
  refine ⟨⟨⟨rfl, rfl⟩, ⟨_, rfl⟩, ?_⟩, ⟨⟨rfl, rfl⟩, ⟨_, rfl⟩, ?_⟩, rfl, rfl, _, rfl⟩
  · decide
  · decide

end Stage
end CampaignControl
