import CampaignControl.Proofs.Fleet.Rounds

/-!
# Reasons for removals

A lifecycle pass over a work unit that nobody deletes removes it for one of two reasons: its
execution has gone (`Lifecycle.Orphaned`), or its retention has ended (`Lifecycle.Expires`). The
second one is decided on the work unit as the pass has observed it, which may have come to its end
just now. Otherwise the work unit is kept, and held by the finalizer (`Lifecycle.Fate`).
-/

namespace CampaignControl

/-- Whether the record of a work unit is being removed. -/
def Event.Payload.isRemoval : Event.Payload → Bool
  | orphanRemoved | retentionExpired | finalized => true
  | _ => false

/-- A removal is made known once, with its reason, and then that it is final. -/
def Event.Payload.Removal (reason : Event.Payload) (payloads : List Event.Payload) : Prop :=
  ∃ front, payloads = front ++ [reason, .finalized] ∧ ∀ p ∈ front, p.isRemoval = false

theorem Event.Payload.Removal.cons {reason p : Event.Payload} {payloads : List Event.Payload}
    (h : reason.Removal payloads) (hp : p.isRemoval = false) : reason.Removal (p :: payloads) := by
  obtain ⟨front, rfl, hfront⟩ := h
  exact ⟨p :: front, rfl, List.forall_mem_cons.2 ⟨hp, hfront⟩⟩

theorem WorkUnit.isLive_iff {u : WorkUnit} : u.isLive ↔ ¬ u.status.phase.isTerminal := by
  simp [isLive]

theorem WorkUnit.not_isExpired_of_isLive {u : WorkUnit} {policy : RetentionPolicy} {now : Instant}
    (h : u.isLive) : ¬ u.isExpired policy now := by
  rw [isExpired, retentionLeft?, if_neg (isLive_iff.1 h)]
  exact Bool.false_ne_true

namespace Lifecycle

open Fleet (openRules Arises)
open Rules (inTurn)

/-! ## Observing -/

/-- A work unit as a pass observes it, by what is stored of its execution. What is created by the
pass itself has nothing to report. -/
def observed (now : Instant) (e : Option Execution) (u : WorkUnit) : WorkUnit :=
  let status := (e.map (·.status)).getD {}
  (follow now (Observation.ofStatus status) status.startTime u).1

variable {u u' : WorkUnit} {e : Option Execution} {now : Instant} {policy : RetentionPolicy}

/-- A finished work unit is observed as it is. -/
theorem observed_of_isTerminal (h : u.status.phase.isTerminal) (now : Instant)
    (e : Option Execution) : observed now e u = u := by
  unfold observed follow
  dsimp only
  split
  · next moved hmoved =>
    have hlive := (WorkUnit.advance_of_advance? hmoved).isLive
    rw [WorkUnit.isLive, h] at hlive
    cases hlive
  · rfl

/-- Without an execution, nothing is observed. -/
theorem observed_none (now : Instant) (u : WorkUnit) : observed now none u = u := by
  unfold observed follow
  dsimp only
  split
  · next moved hmoved => exact absurd rfl (WorkUnit.advance_of_advance? hmoved).ne_pending
  · rfl

/-- What does not matter has no part in whether a work unit is expired when it is observed. -/
theorem isExpired_observed_settled (issued : Nat) :
    (observed now (e.map (Execution.settled issued)) u.timeless).isExpired policy now =
      (observed now e u).isExpired policy now := by
  have hstatus : (e.map (Execution.settled issued)).map (·.status) = e.map (·.status) := by
    cases e <;> rfl
  unfold observed
  dsimp only
  rw [hstatus, ignoresTime_follow]
  rfl

/-- The parts of a work unit by which it expires. -/
structure Alike (u u' : WorkUnit) : Prop where
  spec : u'.spec = u.spec
  phase : u'.status.phase = u.status.phase
  completionTime : u'.status.completionTime = u.status.completionTime

theorem Alike.isExpired_eq (h : Alike u u') :
    u'.isExpired policy now = u.isExpired policy now := by
  unfold WorkUnit.isExpired WorkUnit.retentionLeft?
  rw [h.spec, h.phase, h.completionTime]

theorem Alike.follow (h : Alike u u') (now : Instant) (o : Observation)
    (started : Option Instant) :
    Alike (follow now o started u).1 (follow now o started u').1 := by
  unfold Lifecycle.follow WorkUnit.advance?
  rw [h.phase, h.spec]
  by_cases hstays : u.status.phase = o.phase ∨ !u.status.phase.canMoveTo o.phase
  · rw [if_pos hstays, if_pos hstays]
    exact h
  · rw [if_neg hstays, if_neg hstays]
    refine ⟨rfl, ?_, ?_⟩
    · dsimp only
      rw [Observation.phase_record, Observation.phase_record]
    · cases o with
      | failed | completed => rfl
      | active | pending => exact h.completionTime

theorem alike_guard (u : WorkUnit) : Alike u (guard u).1 := by
  unfold guard
  split <;> exact ⟨rfl, rfl, rfl⟩

theorem alike_recordExecution (now : Instant) (key : Key) (u : WorkUnit) :
    Alike u (recordExecution now key u).1 := by
  unfold recordExecution
  split <;> exact ⟨rfl, rfl, rfl⟩

/-! ## What a visit decides -/

/-- Nobody deletes the work unit, and the finalizer holds it. -/
structure Held (u : WorkUnit) : Prop where
  isDeleting : u.metadata.isDeleting = false
  guarded : u.metadata.hasFinalizer WorkUnit.finalizer

theorem Held.of_metadata (h : Held u) (hmetadata : u'.metadata = u.metadata) : Held u' :=
  ⟨hmetadata ▸ h.isDeleting, hmetadata ▸ h.guarded⟩

namespace Visit

/-- A visit leaves nothing at its key, and tells the reason. -/
structure Removes (reason : Event.Payload) (v : Visit) : Prop where
  site : v.site = {}
  events : reason.Removal (v.events.map (·.payload))

/-- A visit leaves a work unit with this specification that is held. -/
structure Keeps (spec : WorkUnit.Spec) (v : Visit) : Prop where
  unit : ∃ u, v.site.unit = some u ∧ u.spec = spec ∧ Held u
  events : ∀ p ∈ v.events.map (·.payload), p.isRemoval = false

/-- A visit removes a work unit that is expired, and keeps it otherwise. -/
structure Decides (spec : WorkUnit.Spec) (expired : Bool) (v : Visit) : Prop where
  removes : expired = true → v.Removes .retentionExpired
  keeps : expired = false → v.Keeps spec

variable {spec : WorkUnit.Spec} {expired : Bool} {v : Visit}

theorem Decides.after (h : Decides spec expired v) (u : WorkUnit) {payload : Event.Payload}
    (hpayload : payload.isRemoval = false) :
    Decides spec expired (v.after (about u payload)) where
  removes hexpired := ⟨(h.removes hexpired).site, (h.removes hexpired).events.cons hpayload⟩
  keeps hkept :=
    ⟨(h.keeps hkept).unit, List.forall_mem_cons.2 ⟨hpayload, (h.keeps hkept).events⟩⟩

theorem removes_finalize (reason : Event.Payload) (u : WorkUnit) :
    Removes reason ((finalize u).after (about u reason)) :=
  ⟨rfl, [], rfl, fun _ hp => absurd hp List.not_mem_nil⟩

theorem keeps_same (hu : Held u) (e : Option Execution) (action : Action) :
    Keeps u.spec { site := ⟨some u, e⟩, action } :=
  ⟨⟨u, rfl, rfl, hu⟩, fun _ hp => absurd hp List.not_mem_nil⟩

section
variable (settings : Settings) (now : Instant)

theorem decides_retain (hu : Held u) (e : Option Execution) :
    Decides u.spec (u.isExpired settings.retention now) (retain settings now u e) := by
  unfold retain WorkUnit.isExpired
  cases u.retentionLeft? settings.retention now with
  | none => exact ⟨nofun, fun _ => keeps_same hu ..⟩
  | some left =>
    dsimp only
    split
    · next hended => exact ⟨fun _ => removes_finalize .., fun h => by simp [hended] at h⟩
    · next hended => exact ⟨fun h => absurd (of_decide_eq_true h) hended, fun _ => keeps_same hu ..⟩

theorem decides_goOn (hu : Held u) (e : Execution) :
    Decides u.spec (u.isExpired settings.retention now) (goOn settings now u e) := by
  unfold goOn
  split
  · exact decides_retain settings now hu _
  · next hlive =>
    exact ⟨fun h => absurd h (WorkUnit.not_isExpired_of_isLive (WorkUnit.isLive_iff.2 hlive)),
      fun _ => keeps_same hu ..⟩

theorem decides_takeOver (hu : Held u) (e : Execution) :
    Decides u.spec ((observed now (some e) u).isExpired settings.retention now)
      (takeOver settings now u e) := by
  have hobserved : observed now (some e) u =
    (follow now (Observation.ofStatus e.status) e.status.startTime u).1 := rfl
  unfold takeOver
  rw [hobserved]
  split
  · next moved old hfollow =>
    have hadvance := WorkUnit.advance_of_advance? (advance?_of_follow hfollow)
    rw [hfollow, ← hadvance.spec]
    exact (decides_goOn settings now (hu.of_metadata hadvance.metadata) e).after moved rfl
  · next same hfollow =>
    rw [hfollow]
    cases eq_of_follow_none hfollow
    exact decides_goOn settings now hu e

theorem decides_start (hu : Held u) (e : Option Execution) :
    Decides u.spec ((observed now e u).isExpired settings.retention now)
      (start settings now u e) := by
  have halike := alike_recordExecution now u.key u
  have hrecorded := hu.of_metadata (metadata_recordExecution now u.key u)
  have hstatus : (e.getD u.toExecution).status = (e.map (·.status)).getD {} := by
    cases e <;> rfl
  have hexpired : (observed now (some (e.getD u.toExecution))
      (recordExecution now u.key u).1).isExpired settings.retention now =
      (observed now e u).isExpired settings.retention now := by
    unfold observed
    dsimp only [Option.map_some, Option.getD_some]
    rw [hstatus]
    exact (halike.follow ..).isExpired_eq
  have hdecides := decides_takeOver settings now hrecorded (e.getD u.toExecution)
  rw [halike.spec, hexpired] at hdecides
  exact hdecides.after u rfl

end
end Visit

/-- The execution of a live work unit has gone that it has recorded. -/
structure Orphan (u : WorkUnit) (e : Option Execution) : Prop where
  isLive : u.isLive
  recorded : u.status.execution.isSome
  none : e = none

namespace Visit

variable (settings : Settings) (now : Instant)

theorem decides_passOver (hu : Held u) (h : ¬ Orphan u e) :
    Decides u.spec ((observed now e u).isExpired settings.retention now)
      (passOver settings now u e) := by
  unfold passOver
  split
  · next hterminal =>
    rw [observed_of_isTerminal hterminal]
    exact decides_retain settings now hu e
  · next hlive =>
    split
    · exact decides_start settings now hu e
    · next hsome =>
      cases e with
      | none =>
        refine absurd ⟨WorkUnit.isLive_iff.2 hlive, ?_, rfl⟩ h
        exact Option.isSome_iff_ne_none.2 fun hnone => hsome (Option.isNone_iff_eq_none.2 hnone)
      | some e => exact decides_takeOver settings now hu e

theorem removes_passOver (h : Orphan u e) : (passOver settings now u e).Removes .orphanRemoved := by
  obtain ⟨hlive, hsome, rfl⟩ := h
  have hrecorded : ¬ u.status.execution.isNone := by
    rw [Option.isNone_iff_eq_none]
    exact Option.isSome_iff_ne_none.1 hsome
  rw [passOver, if_neg (WorkUnit.isLive_iff.1 hlive), if_neg hrecorded]
  exact removes_finalize ..

theorem held_guard (h : u.metadata.isDeleting = false) : Held (guard u).1 := by
  unfold guard
  split
  · next hguarded => exact ⟨h, hguarded⟩
  · refine ⟨?_, Metadata.hasFinalizer_addFinalizer⟩
    unfold Metadata.addFinalizer
    split <;> exact h

theorem orphan_guard : Orphan (guard u).1 e ↔ Orphan u e := by
  have hstatus : (guard u).1.status = u.status := by
    unfold guard
    split <;> rfl
  constructor <;> rintro ⟨hlive, hsome, hnone⟩
  · exact ⟨by rwa [WorkUnit.isLive, hstatus] at hlive, hstatus ▸ hsome, hnone⟩
  · exact ⟨by rwa [WorkUnit.isLive, hstatus], hstatus ▸ hsome, hnone⟩

theorem pass_of_not_isDeleting (h : u.metadata.isDeleting = false) :
    pass settings now ⟨some u, e⟩ = passOver settings now (guard u).1 e :=
  if_neg (Bool.eq_false_iff.1 h)

theorem removes_pass (hu : u.metadata.isDeleting = false) (h : Orphan u e) :
    (pass settings now ⟨some u, e⟩).Removes .orphanRemoved := by
  rw [pass_of_not_isDeleting settings now hu]
  exact removes_passOver settings now (orphan_guard.2 h)

theorem decides_pass (hu : u.metadata.isDeleting = false) (h : ¬ Orphan u e) :
    Decides u.spec ((observed now e u).isExpired settings.retention now)
      (pass settings now ⟨some u, e⟩) := by
  have hdecides := decides_passOver settings now (held_guard hu) fun hguarded =>
    h (orphan_guard.1 hguarded)
  have hexpired : (observed now e (guard u).1).isExpired settings.retention now =
      (observed now e u).isExpired settings.retention now :=
    ((alike_guard u).follow ..).isExpired_eq
  rw [(alike_guard u).spec, hexpired] at hdecides
  rwa [pass_of_not_isDeleting settings now hu]

end Visit

/-! ## What a pass decides -/

/-- The execution that is stored at a key. -/
def executionAt (s : Store) (k : Key) : Option Execution :=
  (s.find? (executionSlot k)).bind fun o =>
    (Resource.decode o : Except StoreError Execution).toOption

variable {s s' : Store} {issued : Nat} {k : Key} {call : Call} {o : Object} {v : World calls}
  {t : Task calls}

theorem Shows.executionAt_eq {unit : Option WorkUnit} (h : Shows issued k ⟨unit, e⟩ s) :
    executionAt s k = e := by
  rw [executionAt, h.execution]
  cases e with
  | none => rfl
  | some e => simp only [Option.map_some, Option.bind_some, Resource.decode_encode]; rfl

/-- A work unit is not finished, and no execution is stored under the key that it has recorded. -/
def Orphaned (s : Store) (u : WorkUnit) : Prop :=
  u.isLive ∧ ∃ key, u.status.execution = some key ∧ s.find? (executionSlot key) = none

/-- A work unit is finished, as the pass observes it, and its retention has ended. -/
def Expires (call : Call) (s : Store) (u : WorkUnit) : Prop :=
  (observed call.now (executionAt s call.key) u).isExpired call.settings.retention call.now

/-- What a pass has made of a work unit that nobody deletes, and what it has made known. -/
structure Fate (call : Call) (s : Store) (u : WorkUnit) (events : List Event) (s' : Store) :
    Prop where
  gone_iff : s'.find? (unitSlot call.key) = none ↔ Orphaned s u ∨ Expires call s u
  execution : Orphaned s u ∨ Expires call s u → s'.find? (executionSlot call.key) = none
  recorded : ∀ key, u.status.execution = some key → key = call.key
  orphaned : Orphaned s u → Event.Payload.orphanRemoved.Removal (events.map (·.payload))
  expires : Expires call s u → Event.Payload.retentionExpired.Removal (events.map (·.payload))
  kept : ¬ Orphaned s u → ¬ Expires call s u →
    (∃ o u', s'.find? (unitSlot call.key) = some o ∧ Resource.decode o = .ok u' ∧
      u'.spec = u.spec ∧ Held u') ∧
    ∀ p ∈ events.map (·.payload), p.isRemoval = false

theorem orphaned_iff (h : Shows issued k ⟨some u, e⟩ s) : Orphaned s u ↔ Orphan u e := by
  have hrecorded := h.unit_facts.2.1
  have hnone : s.find? (executionSlot k) = none ↔ e = none := by
    rw [h.execution, Option.map_eq_none_iff]
  constructor
  · rintro ⟨hlive, key, hkey, hgone⟩
    cases hrecorded key hkey
    exact ⟨hlive, by rw [hkey]; rfl, hnone.1 hgone⟩
  · rintro ⟨hlive, hsome, hgone⟩
    obtain ⟨key, hkey⟩ := Option.isSome_iff_exists.1 hsome
    refine ⟨hlive, key, hkey, ?_⟩
    cases hrecorded key hkey
    exact hnone.2 hgone

theorem Held.of_timeless (h : Held u.timeless) : Held u :=
  ⟨u.timeless_isDeleting ▸ h.isDeleting, h.guarded⟩

/-- A pass over a work unit at a key comes to what its visit decides. -/
theorem fate_of_round (h : Round s v) (ht : t ∈ v.tasks) (hdone : t.rest.isDone)
    (hs : Shows s.created t.job.key ⟨some u, e⟩ s) (hdel : u.metadata.isDeleting = false) :
    Fate t.job s u t.events v.store := by
  obtain ⟨-, hevents, site, hafter, hsettled⟩ := h.ends ht hdone hs
  have hdel' : u.timeless.metadata.isDeleting = false := u.timeless_isDeleting.trans hdel
  have horphan : Orphan u.timeless (e.map (Execution.settled s.created)) ↔ Orphaned s u := by
    rw [orphaned_iff hs]
    exact ⟨fun h => ⟨h.isLive, h.recorded, Option.map_eq_none_iff.1 h.none⟩,
      fun h => ⟨h.isLive, h.recorded, Option.map_eq_none_iff.2 h.none⟩⟩
  have hexpires : Expires t.job s u ↔ (observed t.job.now (e.map (Execution.settled s.created))
      u.timeless).isExpired t.job.settings.retention t.job.now := by
    unfold Expires
    rw [isExpired_observed_settled, hs.executionAt_eq]
  have hrecorded := hs.unit_facts.2.1
  rw [hevents]
  by_cases hgone : Orphaned s u
  · have hremoves := Visit.removes_pass t.job.settings t.job.now hdel' (horphan.2 hgone)
    obtain ⟨hunit, hexecution⟩ := hafter.eq_none_of_settled (hsettled.trans hremoves.site)
    have hlive : ¬ Expires t.job s u := by
      have hnone : executionAt s t.job.key = none :=
        hs.executionAt_eq.trans ((orphaned_iff hs).1 hgone).none
      unfold Expires
      rw [hnone, observed_none]
      exact WorkUnit.not_isExpired_of_isLive hgone.1
    exact ⟨⟨fun _ => .inl hgone, fun _ => hunit⟩, fun _ => hexecution, hrecorded,
      fun _ => hremoves.events, fun h => absurd h hlive, fun h => absurd hgone h⟩
  · have hdecides := Visit.decides_pass t.job.settings t.job.now hdel' (mt horphan.1 hgone)
    by_cases hexpired : Expires t.job s u
    · have hremoves := hdecides.removes (hexpires.1 hexpired)
      obtain ⟨hunit, hexecution⟩ := hafter.eq_none_of_settled (hsettled.trans hremoves.site)
      exact ⟨⟨fun _ => .inr hexpired, fun _ => hunit⟩, fun _ => hexecution, hrecorded,
        fun h => absurd h hgone, fun _ => hremoves.events, fun _ h => absurd hexpired h⟩
    · have hkeeps := hdecides.keeps (Bool.eq_false_iff.2 (mt hexpires.2 hexpired))
      obtain ⟨u₁, hunit, hspec, hheld⟩ := hkeeps.unit
      have hneither : ¬ (Orphaned s u ∨ Expires t.job s u) := not_or.2 ⟨hgone, hexpired⟩
      obtain ⟨u₂, hunit₂, rfl⟩ : ∃ u₂, site.unit = some u₂ ∧ u₂.timeless = u₁ :=
        Option.map_eq_some_iff.1 ((congrArg Site.unit hsettled).trans hunit)
      have hfind : v.store.find? (unitSlot t.job.key) = some (Resource.encode u₂) := by
        rw [hafter.unit, hunit₂]
        rfl
      refine ⟨⟨fun hnone => ?_, fun h => absurd h hneither⟩, fun h => absurd h hneither, hrecorded,
        fun h => absurd h hgone, fun h => absurd h hexpired, fun _ _ => ⟨?_, hkeeps.events⟩⟩
      · rw [hfind] at hnone
        cases hnone
      · exact ⟨_, u₂, hfind, Resource.decode_encode u₂, hspec, hheld.of_timeless⟩

/-- **A lifecycle pass removes only for a reason.** A pass over a work unit that nobody deletes,
with nothing beside it and without faults, comes to its end. It removes the work unit and its
execution exactly if the execution has gone that was recorded, or if the work unit is expired as the
pass observes it, and makes this known once. Otherwise the work unit is kept as it is specified, and
held by the finalizer (`Fate`). -/
theorem pass_removes_for_reason {w : World Fleet.repertoire} (hw : openRules.Reachable w)
    (found : w.store.find? (unitSlot call.key) = some o) (decoded : Resource.decode o = .ok u)
    (hdel : u.metadata.isDeleting = false) :
    (∃ v, (inTurn calls).Completed [] w.store [call] v) ∧
    ∀ v, (inTurn calls).Completed [] w.store [call] v → ∃ t, v.tasks = [t] ∧ t.job = call ∧
      (∃ action, t.rest = .done (.ok action)) ∧ (∀ e ∈ t.events, e.entity = call.key) ∧
      Fate call w.store u t.events v.store := by
  refine ⟨Rules.exists_completed (Rules.during_inTurn calls) [] w.store [call], fun v hv => ?_⟩
  obtain ⟨t, htasks, hjob⟩ := List.map_eq_singleton_iff.1 hv.jobs
  cases hjob
  have hs : Arises w.store := ⟨w, hw, rfl⟩
  have hround := round_of_completed hs (beside_of_inTurn hv) (List.nodup_singleton _)
  have ht : t ∈ v.tasks := htasks ▸ List.mem_singleton_self t
  obtain ⟨⟨unit, execution⟩, hsite⟩ :=
    Shows.exists_of_regular hs.regular (Nat.le_refl _) t.job.key
  obtain ⟨u', rfl, rfl⟩ := Option.map_eq_some_iff.1 (hsite.unit.symm.trans found)
  cases (Resource.decode_encode u').symm.trans decoded
  obtain ⟨hanswer, hevents, -⟩ := hround.ends ht (hv.done t ht) hsite
  refine ⟨t, htasks, rfl, ⟨_, hanswer⟩, fun e he => ?_,
    fate_of_round hround ht (hv.done t ht) hsite hdel⟩
  rw [hevents] at he
  refine Visit.isAbout_pass t.job.settings t.job.now (fun u hunit => ?_) e he
  cases hunit
  exact hsite.unit_facts.1

/-- A pass when the default retention ends of what was completed at first. -/
def sampleCall : Call := { key := sampleUnit 0, now := { second := 7200, nano := 0 } }

/-- The execution is deleted before anything is reported of it. -/
def sampleLoss : List (Turn Fleet.repertoire) :=
  [.outside .epoch (.delete .execution (sampleUnit 0) .orphan)]

/-- The work unit at a key, unless it is being deleted. -/
def undeleted? (s : Store) (k : Key) : Option WorkUnit := do
  let o ← s.find? (unitSlot k)
  let u ← (Resource.decode o : Except StoreError WorkUnit).toOption
  if u.metadata.isDeleting then none else some u

theorem exists_of_undeleted? (h : undeleted? s k = some u) : ∃ o, s.find? (unitSlot k) = some o ∧
    Resource.decode o = .ok u ∧ u.metadata.isDeleting = false := by
  unfold undeleted? at h
  simp only [Option.bind_eq_bind, Option.bind_eq_some_iff] at h
  obtain ⟨o, found, u', hdecode, h⟩ := h
  split at h
  · cases h
  · next hdel =>
    cases h
    cases hresult : (Resource.decode o : Except StoreError WorkUnit) with
    | error e =>
      rw [hresult] at hdecode
      cases hdecode
    | ok u' =>
      rw [hresult] at hdecode
      cases hdecode
      exact ⟨o, found, hresult, Bool.eq_false_iff.2 hdel⟩

instance : Decidable (Expires call s u) := by unfold Expires; infer_instance

/-- One pass finds that the execution has completed and that the retention has ended since then.
The other one finds that the execution has gone. -/
theorem pass_removes_for_reason_sample :
    (∃ (w : World Fleet.repertoire) (u : WorkUnit) (v : World calls),
      openRules.Reachable w ∧ undeleted? w.store sampleCall.key = some u ∧ u.isLive ∧
      Expires sampleCall w.store u ∧ (inTurn calls).Completed [] w.store [sampleCall] v ∧
      v.store.find? (unitSlot sampleCall.key) = none) ∧
    ∃ (w : World Fleet.repertoire) (u : WorkUnit) (v : World calls),
      openRules.Reachable w ∧ undeleted? w.store sampleCall.key = some u ∧
      Orphaned w.store u ∧ (inTurn calls).Completed [] w.store [sampleCall] v ∧
      v.store.find? (unitSlot sampleCall.key) = none := by
  have hexpires : (openRules.play {} (sampleFleet ++ sampleReport)).any fun w =>
      (undeleted? w.store sampleCall.key).any fun u =>
        u.isLive && decide (Expires sampleCall w.store u) := by
    decide +kernel
  have horphaned : (openRules.play {} (sampleFleet ++ sampleLoss)).any fun w =>
      (undeleted? w.store sampleCall.key).any fun u =>
        u.isLive && u.status.execution == some sampleCall.key &&
          (w.store.find? (executionSlot sampleCall.key)).isNone := by
    decide +kernel
  refine ⟨?_, ?_⟩
  · obtain ⟨w, hsteps, hplay⟩ := Rules.exists_of_play hexpires
    obtain ⟨u, hu, hfate⟩ := Option.any_eq_true _ _ |>.1 hplay
    rw [Bool.and_eq_true, decide_eq_true_iff] at hfate
    obtain ⟨o, found, decoded, hdel⟩ := exists_of_undeleted? hu
    obtain ⟨⟨v, hv⟩, hends⟩ := pass_removes_for_reason ⟨trivial, hsteps⟩ found decoded hdel
    obtain ⟨t, -, -, -, -, hgone⟩ := hends v hv
    exact ⟨w, u, v, ⟨trivial, hsteps⟩, hu, hfate.1, hfate.2, hv, hgone.gone_iff.2 (.inr hfate.2)⟩
  · obtain ⟨w, hsteps, hplay⟩ := Rules.exists_of_play horphaned
    obtain ⟨u, hu, hfate⟩ := Option.any_eq_true _ _ |>.1 hplay
    simp only [Bool.and_eq_true, beq_iff_eq, Option.isNone_iff_eq_none] at hfate
    have hfate : Orphaned w.store u := ⟨hfate.1.1, _, hfate.1.2, hfate.2⟩
    obtain ⟨o, found, decoded, hdel⟩ := exists_of_undeleted? hu
    obtain ⟨⟨v, hv⟩, hends⟩ := pass_removes_for_reason ⟨trivial, hsteps⟩ found decoded hdel
    obtain ⟨t, -, -, -, -, hgone⟩ := hends v hv
    exact ⟨w, u, v, ⟨trivial, hsteps⟩, hu, hfate, hv, hgone.gone_iff.2 (.inl hfate)⟩

end Lifecycle
end CampaignControl
