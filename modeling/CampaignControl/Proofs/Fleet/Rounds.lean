import CampaignControl.Proofs.Fleet.Visits

/-!
# Rounds

A round is one lifecycle pass over each of some different work units. Its passes may be at work
side by side (`Lifecycle.beside`) or follow each other (`Rules.inTurn`). From a store that a
fleet may have (`Fleet.Arises`), every pass of a round comes to the visit of what was stored at its
key in the beginning, and nothing else changes (`Lifecycle.Round`).

So the passes of a round do not interfere: in whatever way they are interleaved, they leave what
they leave one after another in any order, and answer and make known the same
(`Lifecycle.rounds_agree`).
-/

namespace CampaignControl

namespace Fleet

variable {s : Store}

/-! ## Stores that a fleet may have -/

/-- A store that a fleet may have. -/
def Arises (s : Store) : Prop := ∃ w : World repertoire, openRules.Reachable w ∧ w.store = s

namespace Arises

variable (h : Arises s)
include h

theorem regular : Regular s := by
  obtain ⟨w, hw, rfl⟩ := h
  exact Fleet.regular hw

theorem outside {r : StoreRequest} (hr : IsOpen r) (now : Instant) :
    Arises (s.serve now r).2 := by
  obtain ⟨w, hw, rfl⟩ := h
  exact ⟨_, hw.of_steps (.single ⟨.outside now r hr, trivial⟩), rfl⟩

theorem campaign_owner {k : Key} {o : Object}
    (found : s.find? (Admission.campaignSlot k) = some o) : o.metadata.owner = none := by
  obtain ⟨w, hw, rfl⟩ := h
  exact Fleet.campaign_owner hw found

end Arises
end Fleet

namespace Lifecycle

open Fleet (Arises openRules)
open Rules (inTurn)

/-! ## Calls -/

/-- A pass over the work unit at a key, with its settings and at its time. -/
structure Call where
  key : Key
  settings : Settings := {}
  now : Instant := .epoch

def calls : Repertoire where
  Job := Call
  Result _ := Except Error Action
  program call := reconcile call.settings call.key call.now

/-- Passes over different work units side by side, and nothing else. -/
def beside : Rules calls where
  excludes call call' := call.key = call'.key
  outside _ := False

variable {s : Store} {v v' : World calls} {t : Task calls} {k : Key} {site : Site}

/-- The same pass as a task of the fleet. -/
def asFleet (t : Task calls) : Task Fleet.repertoire where
  job := .pass (.lifecycle t.job.settings t.job.key t.job.now)
  rest := t.rest
  past := t.past
  abandoned := t.abandoned

/-- What passes do beside each other may be done in a fleet. -/
theorem move_asFleet (h : beside.Move v v') {idle : List (Task Fleet.repertoire)}
    (hidle : ∀ t ∈ idle, t.abandoned) :
    openRules.Move { store := v.store, tasks := idle ++ v.tasks.map asFleet }
      { store := v'.store, tasks := idle ++ v'.tasks.map asFleet } := by
  cases h with
  | start call hfree =>
    rw [List.map_append, ← List.append_assoc]
    refine @Rules.Move.start _ openRules _ (.pass (.lifecycle call.settings call.key call.now))
      fun t ht hprogress => ?_
    rcases List.mem_append.1 ht with ht | ht
    · cases (hidle t ht).symm.trans hprogress.1
    · obtain ⟨t', ht', rfl⟩ := List.mem_map.1 ht
      rintro ⟨key, hkey, hkey'⟩
      exact hfree t' ht' hprogress (Eq.trans hkey hkey'.symm)
  | @answer front back t r next reply s' htasks hkept hrest hanswered =>
    rw [htasks, List.map_append, List.map_append, ← List.append_assoc, ← List.append_assoc]
    exact .answer (t := asFleet t) rfl hkept hrest hanswered
  | @abandon front back t htasks =>
    rw [htasks, List.map_append, List.map_append, ← List.append_assoc, ← List.append_assoc]
    exact .abandon (t := asFleet t) rfl
  | outside now r hr => exact hr.elim

theorem arises_of_steps (hs : Arises s) (h : beside.Steps { store := s } v) : Arises v.store := by
  obtain ⟨w, hw, rfl⟩ := hs
  refine ⟨{ store := v.store, tasks := w.tasks.map .abandon ++ v.tasks.map asFleet }, ?_, rfl⟩
  induction h with
  | refl =>
    have hidle := hw.of_steps (Rules.steps_abandon (fun _ => trivial) w)
    rwa [List.map_nil, List.append_nil]
  | tail _ hstep ih =>
    refine ih.of_steps (.single ⟨move_asFleet hstep.move fun t ht => ?_, trivial⟩)
    obtain ⟨t, -, rfl⟩ := List.mem_map.1 ht
    rfl

/-! ## What has come of calls -/

/-- The visit that a call comes to. -/
def Call.visit (call : Call) (issued : Nat) (site : Site) : Visit :=
  .pass call.settings call.now (site.settled issued)

/-- A call has come to the visit of its site. -/
def Call.Ends (call : Call) (issued : Nat) (site : Site) (result : Except Error Action)
    (log : List Event) (s : Store) : Prop :=
  ∃ action, result = .ok action ∧
    Comes issued call.key (call.visit issued site) [] action log s

/-- A task goes on to the visit of its site. -/
def Tends (s : Store) (t : Task calls) (s' : Store) : Prop :=
  ∀ site, Shows s.created t.job.key site s →
    Program.Settles (atKey s.created t.job.key) (t.job.Ends s.created site) t.rest t.events s'

/-- What has become of a store by calls at different keys. -/
structure Round (s : Store) (v : World calls) : Prop where
  arises : Arises v.store
  created_le : s.created ≤ v.store.created
  tends : ∀ t ∈ v.tasks, Tends s t v.store
  elsewhere : ∀ slot, (∀ t ∈ v.tasks, slot ≠ unitSlot t.job.key ∧ slot ≠ executionSlot t.job.key) →
    v.store.find? slot = s.find? slot

theorem Tends.later {s₁ s₂ : Store} (h : Tends s t s₁) (hlater : Later s.created t.job.key s₁ s₂) :
    Tends s t s₂ := fun site hsite => (h site hsite).later hlater

theorem Tends.start {call : Call} {s₁ : Store} (hlater : Later s.created call.key s s₁) :
    Tends s (.start call) s₁ := fun _ hsite =>
  reconcile_settles call.settings call.now (hsite.later hlater)

namespace Round

/-- Nobody else has been at a key. -/
theorem later (h : Round s v) (hkey : ∀ t ∈ v.tasks, t.job.key ≠ k) :
    Later s.created k s v.store where
  regular := h.arises.regular
  issued_le := h.created_le
  unit := h.elsewhere _ fun t ht =>
    ⟨fun heq => hkey t ht (congrArg Slot.key heq).symm, (executionSlot_ne _ _).symm⟩
  execution := h.elsewhere _ fun t ht =>
    ⟨executionSlot_ne _ _, fun heq => hkey t ht (congrArg Slot.key heq).symm⟩

/-- A pass is started where none has been. -/
theorem start (h : Round s v) {call : Call} (hkey : ∀ t ∈ v.tasks, t.job.key ≠ call.key) :
    Round s { v with tasks := v.tasks ++ [.start call] } where
  arises := h.arises
  created_le := h.created_le
  tends t ht := by
    rcases List.mem_append.1 ht with ht | ht
    · exact h.tends t ht
    · cases List.mem_singleton.1 ht
      exact .start (h.later hkey)
  elsewhere slot hslot := h.elsewhere slot fun t ht => hslot t (List.mem_append_left _ ht)

/-- A pass goes on, at its key and nowhere else. -/
theorem answer {s₁ s₂ : Store} {front back : List (Task calls)} {r : Request}
    {next : r.Reply → Program (Except Error Action)} {reply : r.Reply} (hs : Arises s)
    (h : Round s { store := s₁, tasks := front ++ t :: back }) (harises : Arises s₂)
    (hkey : ∀ t' ∈ front ++ back, t'.job.key ≠ t.job.key) (hrest : t.rest = .ask r next)
    (hserved : r.Served [] s₁ reply s₂) :
    Round s { store := s₂, tasks := front ++ t.answered r next reply s₁ s₂ :: back } := by
  have ht : t ∈ front ++ t :: back := List.mem_append_right _ List.mem_cons_self
  have hgoes : ∀ site, Shows s.created t.job.key site s → Apart t.job.key s₁ s₂ ∧
      Program.Settles (atKey s.created t.job.key) (t.job.Ends s.created site) (next reply)
        (t.events ++ r.events) s₂ := by
    intro site hsite
    have htends := h.tends t ht site hsite
    rw [hrest] at htends
    exact htends s₁ s₂ reply ⟨h.arises.regular, h.created_le, rfl, rfl⟩ hserved harises.regular
  have hcreated : s.created ≤ s₂.created :=
    Nat.le_trans h.created_le hserved.edits.follows.created_le
  obtain ⟨site, hsite⟩ := Shows.exists_of_regular hs.regular (Nat.le_refl _) t.job.key
  have hapart := (hgoes site hsite).1
  refine ⟨harises, hcreated, fun t' ht' => ?_, fun slot hslot => ?_⟩
  · rcases List.mem_cons.1 (List.perm_middle.mem_iff.1 ht') with rfl | ht'
    · intro site hsite
      have hevents : (t.answered r next reply s₁ s₂).events = t.events ++ r.events := by
        simp only [Task.events, Task.answered, List.flatMap_append, List.flatMap_singleton]
      rw [hevents]
      exact (hgoes site hsite).2
    · refine (h.tends t' (List.perm_middle.mem_iff.2 (List.mem_cons_of_mem _ ht'))).later ?_
      have hne := hkey t' ht'
      exact ⟨harises.regular, hcreated,
        hapart _ (fun heq => hne (congrArg Slot.key heq)) (executionSlot_ne _ _).symm,
        hapart _ (executionSlot_ne _ _) (fun heq => hne (congrArg Slot.key heq))⟩
  · have hat := hslot (t.answered r next reply s₁ s₂)
      (List.mem_append_right _ List.mem_cons_self)
    refine (hapart slot hat.1 hat.2).trans (h.elsewhere slot fun t' ht' => ?_)
    rcases List.mem_cons.1 (List.perm_middle.mem_iff.1 ht') with rfl | ht'
    · exact hat
    · exact hslot t' (List.perm_middle.mem_iff.2 (List.mem_cons_of_mem _ ht'))

/-- A pass is abandoned. -/
theorem abandon {s₁ : Store} {front back : List (Task calls)}
    (h : Round s { store := s₁, tasks := front ++ t :: back }) :
    Round s { store := s₁, tasks := front ++ t.abandon :: back } where
  arises := h.arises
  created_le := h.created_le
  tends := Task.forall_replace h.tends
    (h.tends t (List.mem_append_right _ List.mem_cons_self))
  elsewhere slot hslot := h.elsewhere slot (Task.forall_replace hslot
    (hslot t.abandon (List.mem_append_right _ List.mem_cons_self)))

end Round

/-- **In a round, every pass goes on to the visit of its site**, and nothing else changes. -/
theorem round (hs : Arises s) (h : beside.Steps { store := s } v) (hserved : v.IsServed [])
    (hkeys : (v.tasks.map fun t => t.job.key).Nodup) : Round s v := by
  induction h with
  | refl => exact ⟨hs, Nat.le_refl _, fun t ht => absurd ht List.not_mem_nil, fun _ _ => rfl⟩
  | @tail v₀ v₁ hsteps hstep ih =>
    have harises := arises_of_steps hs (hsteps.tail hstep)
    have hkeys₀ : (v₀.tasks.map fun t => t.job.key).Nodup := by
      have hsub := hstep.move.jobs_prefix.sublist.map fun call : calls.Job => Call.key call
      rw [List.map_map, List.map_map] at hsub
      exact hsub.nodup hkeys
    replace ih := ih (hstep.move.isServed hserved) hkeys₀
    cases hstep.move with
    | start call hfree =>
      rw [List.map_append, List.nodup_append] at hkeys
      refine ih.start fun t ht heq => ?_
      exact hkeys.2.2 _ (List.mem_map_of_mem ht) _ (List.mem_singleton_self _) heq
    | @answer front back t r next reply s' htasks hkept hrest hanswered =>
      obtain ⟨store, tasks⟩ := v₀
      cases htasks
      refine ih.answer hs harises (fun t' ht' heq => ?_) hrest ?_
      · have hmiddle := (List.perm_middle.map fun t : Task calls => t.job.key).nodup_iff.1 hkeys₀
        exact (List.nodup_cons.1 hmiddle).1 (List.mem_map.2 ⟨t', ht', heq⟩)
      · exact hserved _ (List.mem_append_right _ List.mem_cons_self) _
          (List.mem_append_right _ List.mem_cons_self)
    | @abandon front back t htasks =>
      obtain ⟨store, tasks⟩ := v₀
      cases htasks
      exact ih.abandon
    | outside now r hr => exact hr.elim

/-! ## Completed rounds -/

variable {jobs : List Call}

theorem round_of_completed (hs : Arises s) (h : beside.Completed [] s jobs v)
    (hkeys : (jobs.map Call.key).Nodup) : Round s v := by
  have hsame : (v.tasks.map Task.job).map (fun call : calls.Job => Call.key call) =
      jobs.map Call.key := congrArg (List.map Call.key) h.jobs
  rw [List.map_map] at hsame
  exact round hs h.steps h.served (hsame ▸ hkeys)

theorem beside_of_inTurn (h : (inTurn calls).Completed [] s jobs v) :
    beside.Completed [] s jobs v :=
  h.relax (fun _ _ _ => trivial) (fun _ h => h) fun _ h => h

namespace Round

/-- A pass has come to the visit of its site. -/
theorem ends (h : Round s v) (ht : t ∈ v.tasks) (hdone : t.rest.isDone)
    (hsite : Shows s.created t.job.key site s) :
    t.rest = .done (.ok (t.job.visit s.created site).action) ∧
      t.events = (t.job.visit s.created site).events ∧
      ∃ site', Shows s.created t.job.key site' v.store ∧
        site'.settled s.created = (t.job.visit s.created site).site := by
  have htends := h.tends t ht site hsite
  cases hrest : t.rest with
  | ask r next =>
    rw [hrest] at hdone
    cases hdone
  | done result =>
    rw [hrest] at htends
    obtain ⟨action, rfl, haction, hevents, hafter⟩ :=
      htends v.store ⟨h.arises.regular, h.created_le, rfl, rfl⟩
    exact ⟨by rw [haction], hevents, hafter⟩

end Round

/-- Where nothing matters, nothing is stored. -/
theorem Shows.eq_none_of_settled {issued : Nat} (h : Shows issued k site s)
    (hsettled : site.settled issued = {}) :
    s.find? (unitSlot k) = none ∧ s.find? (executionSlot k) = none := by
  obtain ⟨unit, execution⟩ := site
  cases unit with
  | some u => cases hsettled
  | none =>
    cases execution with
    | some e => cases hsettled
    | none => exact ⟨h.unit, h.execution⟩

/-- A work unit that is to be deleted has gone, and its execution with it. -/
theorem Round.gone (h : Round s v) (hs : Fleet.Regular s) (ht : t ∈ v.tasks)
    (hdone : t.rest.isDone) {o : Object} (found : s.find? (unitSlot t.job.key) = some o)
    (hdel : o.metadata.isDeleting) :
    v.store.find? (unitSlot t.job.key) = none ∧ v.store.find? (executionSlot t.job.key) = none := by
  obtain ⟨⟨unit, execution⟩, hsite⟩ := Shows.exists_of_regular hs (Nat.le_refl _) t.job.key
  obtain ⟨-, -, site', hafter, hsettled⟩ := h.ends ht hdone hsite
  obtain ⟨u, rfl, rfl⟩ := Option.map_eq_some_iff.1 (hsite.unit.symm.trans found)
  have hfinalize : t.job.visit s.created ⟨some u, execution⟩ = .finalize u.timeless :=
    if_pos (u.timeless_isDeleting.trans hdel)
  rw [hfinalize] at hsettled
  exact hafter.eq_none_of_settled hsettled

/-- What does not matter being left out, the same is stored at a key. -/
theorem Shows.settled_eq {issued : Nat} {site' : Site} {s' : Store} (h : Shows issued k site s)
    (h' : Shows issued k site' s') (hsame : site.settled issued = site'.settled issued) :
    (s.find? (unitSlot k)).map (Object.settled issued) =
        (s'.find? (unitSlot k)).map (Object.settled issued) ∧
      (s.find? (executionSlot k)).map (Object.settled issued) =
        (s'.find? (executionSlot k)).map (Object.settled issued) := by
  have hunit : ∀ unit : Option WorkUnit, (unit.map Resource.encode).map (Object.settled issued) =
      (unit.map WorkUnit.timeless).map fun u => (Resource.encode u).settled issued := by
    rintro (_ | u)
    · rfl
    · exact congrArg some (Object.settled_encode_timeless issued u).symm
  have hexecution : ∀ execution : Option Execution,
      (execution.map Resource.encode).map (Object.settled issued) =
        (execution.map (Execution.settled issued)).map Resource.encode := by
    rintro (_ | e) <;> rfl
  rw [h.unit, h'.unit, h.execution, h'.execution, hunit, hunit, hexecution, hexecution]
  exact ⟨congrArg _ (congrArg Site.unit hsame), congrArg _ (congrArg Site.execution hsame)⟩

/-- **The passes of a round do not interfere.** However they are interleaved, they leave the same as
one after another in any order, except for versions, identities that have been issued meanwhile and
the times that the store has given to objects. Each pass answers the same, and makes the same known,
which is about its own work unit. -/
theorem rounds_agree {w : World Fleet.repertoire} (hw : openRules.Reachable w)
    {order : List Call} (hkeys : (jobs.map Call.key).Nodup) (hperm : order.Perm jobs) :
    (∃ u, (inTurn calls).Completed [] w.store order u) ∧
    ∀ u v, (inTurn calls).Completed [] w.store order u → beside.Completed [] w.store jobs v →
      (∀ slot, (v.store.find? slot).map (Object.settled w.store.created) =
        (u.store.find? slot).map (Object.settled w.store.created)) ∧
      ∀ t ∈ v.tasks, ∃ t' ∈ u.tasks, t'.job = t.job ∧
        (∃ action, t.rest = .done (.ok action) ∧ t'.rest = .done (.ok action)) ∧
        t'.events = t.events ∧ ∀ e ∈ t.events, e.entity = t.job.key := by
  refine ⟨Rules.exists_completed (Rules.during_inTurn calls) [] w.store order,
    fun u v hu hv => ?_⟩
  have hs : Arises w.store := ⟨w, hw, rfl⟩
  have hu' := beside_of_inTurn hu
  have hround := round_of_completed hs hv hkeys
  have hround' := round_of_completed hs hu' ((hperm.map _).nodup_iff.2 hkeys)
  have hsite : ∀ k, ∃ site, Shows w.store.created k site w.store :=
    Shows.exists_of_regular hs.regular (Nat.le_refl _)
  have hother : ∀ t ∈ v.tasks, ∃ t' ∈ u.tasks, t'.job = t.job := fun t ht =>
    hu.exists_task (hperm.mem_iff.2 (hv.mem_jobs ht))
  have hmine : ∀ t' ∈ u.tasks, ∃ t ∈ v.tasks, t.job = t'.job := fun t' ht' =>
    hv.exists_task (hperm.mem_iff.1 (hu.mem_jobs ht'))
  refine ⟨fun slot => ?_, fun t ht => ?_⟩
  · by_cases hat : ∃ t ∈ v.tasks, slot = unitSlot t.job.key ∨ slot = executionSlot t.job.key
    · obtain ⟨t, ht, hslot⟩ := hat
      obtain ⟨t', ht', hjob⟩ := hother t ht
      obtain ⟨site, hsite⟩ := hsite t.job.key
      obtain ⟨-, -, after, hafter, hsettled⟩ := hround.ends ht (hv.done t ht) hsite
      obtain ⟨-, -, after', hafter', hsettled'⟩ :=
        hround'.ends ht' (hu.done t' ht') (hjob ▸ hsite)
      rw [hjob] at hafter' hsettled'
      have hsame := hafter.settled_eq hafter' (hsettled.trans hsettled'.symm)
      rcases hslot with rfl | rfl
      · exact hsame.1
      · exact hsame.2
    · -- no pass has been there
      have hne : ∀ t ∈ v.tasks, slot ≠ unitSlot t.job.key ∧ slot ≠ executionSlot t.job.key :=
        fun t ht => ⟨fun heq => hat ⟨t, ht, .inl heq⟩, fun heq => hat ⟨t, ht, .inr heq⟩⟩
      rw [hround.elsewhere slot hne, hround'.elsewhere slot fun t' ht' => ?_]
      obtain ⟨t, ht, hjob⟩ := hmine t' ht'
      rw [← hjob]
      exact hne t ht
  · obtain ⟨t', ht', hjob⟩ := hother t ht
    obtain ⟨site, hsite⟩ := hsite t.job.key
    obtain ⟨hresult, hevents, -⟩ := hround.ends ht (hv.done t ht) hsite
    obtain ⟨hresult', hevents', -⟩ := hround'.ends ht' (hu.done t' ht') (hjob ▸ hsite)
    rw [hjob] at hevents'
    refine ⟨t', ht', hjob, ⟨_, hresult, ?_⟩, hevents'.trans hevents.symm, fun e he => ?_⟩
    · rw [hresult', hjob]
    · rw [hevents] at he
      refine Visit.isAbout_pass t.job.settings t.job.now (fun u hunit => ?_) e he
      obtain ⟨u', hsome, rfl⟩ := Option.map_eq_some_iff.1 hunit
      obtain ⟨unit, execution⟩ := site
      cases hsome
      exact hsite.unit_facts.1

instance : DecidableRel beside.excludes := fun call call' =>
  inferInstanceAs (Decidable (call.key = call'.key))

instance : DecidablePred beside.outside := fun _ => .isFalse id

instance : DecidablePred beside.during := fun _ => .isTrue trivial

/-- A campaign with two batches, and the key of a work unit of it. -/
def sampleCampaign : Campaign :=
  { Controller.sampleCampaign with
    spec := { policy := { strategy := .fixedBatchCount, batchSize := 2, parallelism := 2 } } }

def sampleUnit (index : Nat) : Key := { space := "fleet", name := s!"sweep-batch-{index}" }

/-- A pass of the campaign creates both work units, and the first one gets its execution. -/
def sampleFleet : List (Turn Fleet.repertoire) :=
  .outside .epoch (.create .campaign (Resource.encode sampleCampaign)) ::
    .start (.pass (.admission {} sampleCampaign.key .epoch)) ::
    (List.replicate 14 (.answer 0 .epoch {} ["first", "second"]) ++
      .start (.pass (.lifecycle {} (sampleUnit 0) .epoch)) ::
        List.replicate 9 (.answer 1 .epoch {} []))

/-- The execution is reported to have completed. -/
def sampleReport : List (Turn Fleet.repertoire) :=
  .start (.report (sampleUnit 0) fun _ => { completionTime := some .epoch }) ::
    List.replicate 2 (.answer 2 .epoch {} [])

/-- Passes over both work units take turns. -/
def sampleRound : List (Turn calls) :=
  [.start { key := sampleUnit 0 }, .start { key := sampleUnit 1 }] ++
    (List.replicate 9 [.answer 0 .epoch {} [], .answer 1 .epoch {} []]).flatten

theorem sampleRound_isServed : ∀ turn ∈ sampleRound, turn.IsServed [] := by
  intro turn hturn
  rcases List.mem_append.1 hturn with hstart | hanswer
  · obtain rfl | rfl := List.mem_pair.1 hstart <;> trivial
  · obtain ⟨turns, hturns, hturn⟩ := List.mem_flatten.1 hanswer
    obtain rfl := List.eq_of_mem_replicate hturns
    obtain rfl | rfl := List.mem_pair.1 hturn <;> exact ⟨rfl, rfl⟩

/-- One pass makes known that its work unit is finished, while the other one creates an
execution. -/
theorem rounds_agree_sample : ∃ (w : World Fleet.repertoire) (jobs : List Call) (u v : World calls),
    openRules.Reachable w ∧ (jobs.map Call.key).Nodup ∧ jobs.reverse.Perm jobs ∧
    (inTurn calls).Completed [] w.store jobs.reverse u ∧ beside.Completed [] w.store jobs v ∧
    (v.tasks.map fun t => t.events.length) = [1, 1] ∧
    (∀ slot, (v.store.find? slot).map (Object.settled w.store.created) =
      (u.store.find? slot).map (Object.settled w.store.created)) ∧
    ∀ t ∈ v.tasks, ∃ t' ∈ u.tasks, t'.job = t.job ∧ t'.events = t.events := by
  have hplay : (openRules.play {} (sampleFleet ++ sampleReport)).any fun w =>
      (beside.play { store := w.store } sampleRound).any fun v =>
        v.tasks.all (fun t => t.rest.isDone) &&
        decide (v.tasks.map fun t => t.job.key).Nodup &&
        decide ((v.tasks.map fun t => t.events.length) = [1, 1]) := by
    decide +kernel
  obtain ⟨w, hsteps, hplay⟩ := Rules.exists_of_play hplay
  obtain ⟨v, hplay, hv⟩ := Option.any_eq_true _ _ |>.1 hplay
  simp only [Bool.and_eq_true, List.all_eq_true, decide_eq_true_iff] at hv
  obtain ⟨⟨hdone, hkeys⟩, hevents⟩ := hv
  have hw : openRules.Reachable w := ⟨trivial, hsteps⟩
  have hcompleted := Rules.completed_of_play sampleRound_isServed hplay hdone
  have hkeys' : ((v.tasks.map Task.job).map fun call : calls.Job => Call.key call).Nodup := by
    rwa [List.map_map]
  obtain ⟨⟨u, hu⟩, hagree⟩ := rounds_agree hw hkeys' (List.reverse_perm _)
  obtain ⟨hsame, htasks⟩ := hagree u v hu hcompleted
  refine ⟨w, v.tasks.map Task.job, u, v, hw, hkeys', List.reverse_perm _, hu, hcompleted, hevents,
    hsame, fun t ht => ?_⟩
  obtain ⟨t', ht', hjob, -, hsame, -⟩ := htasks t ht
  exact ⟨t', ht', hjob, hsame⟩

end Lifecycle
end CampaignControl
