import CampaignControl.Proofs.Lifecycle.Custody

/-!
# Custody along runs

All passes keep executions in the custody of work units, however they are interleaved with each
other and with what comes from outside, as long as the lifecycle passes over one work unit follow
each other (`Lifecycle.custody_upheld`). So no execution is left behind, and the record of a work
unit is coherent and only goes forward.
-/

namespace CampaignControl
namespace Lifecycle

variable {s s' : Store} {key : Key}

/-! ## Contracts -/

/-- A lifecycle pass disturbs no other one, and relies on not being disturbed. -/
def custodyContract (job : Controller.Job) : Contract (fun _ => True) Custody where
  rely s s' := ∀ key, job.Follows key → Undisturbed key s s'
  guar s s' := Advances s s' ∧ ∀ key, ¬ job.Follows key → Undisturbed key s s'
  rely_refl s key _ := .refl key s
  rely_trans h h' key hfollows := (h key hfollows).trans (h' key hfollows)
  guar_refl s := ⟨.refl s, fun key _ => .refl key s⟩
  guar_trans hs hfollows hfollows' h h' :=
    ⟨h.1.trans hs hfollows hfollows' h'.1, fun key hnot => (h.2 key hnot).trans (h'.2 key hnot)⟩
  deletions _ h hdel := by
    have hkept := h.deletions hdel
    exact ⟨hkept.custody, hkept.advances, fun key _ => hkept.undisturbed key⟩

theorem Kept.guar (h : Kept s s') (job : Controller.Job) :
    Custody s' ∧ (custodyContract job).guar s s' :=
  ⟨h.custody, h.advances, fun key _ => h.undisturbed key⟩

/-- A work unit with the finalizer and an execution is stored at a key. -/
def IsRecorded (s : Store) (key : Key) : Prop :=
  ∃ object, s.find? (unitSlot key) = some object ∧
    object.metadata.hasFinalizer WorkUnit.finalizer ∧
    ∃ u : WorkUnit, Resource.decode object = .ok u ∧ u.status.execution.isSome

theorem Undisturbed.isRecorded (h : Undisturbed key s s') (hrecorded : IsRecorded s key) :
    IsRecorded s' key := by
  obtain ⟨object, found, hfin, u, hdecode, hsome⟩ := hrecorded
  obtain ⟨object', found', hfades⟩ := h.unit found hfin
  refine ⟨object', found', hfades.hasFinalizer _ ▸ hfin,
    Resource.setMetadata object'.metadata u, ?_, hsome⟩
  rw [Resource.decode_eq_map hfades.body, hdecode]
  rfl

namespace Stored

variable {object : Object} {u : WorkUnit} (h : Stored Custody key s object u)
include h

theorem hasFinalizer (hguarded : IsGuarded s key) :
    u.metadata.hasFinalizer WorkUnit.finalizer := by
  obtain ⟨held, hheld, hfin⟩ := hguarded
  rw [h.found] at hheld
  cases hheld
  rwa [h.metadata_eq]

theorem isRecorded (hguarded : IsGuarded s key) (hsome : u.status.execution.isSome) :
    IsRecorded s key :=
  ⟨object, h.found, h.metadata_eq ▸ h.hasFinalizer hguarded, u, h.decoded, hsome⟩

theorem of_isRecorded (hrecorded : IsRecorded s key) :
    u.metadata.hasFinalizer WorkUnit.finalizer ∧ u.status.execution.isSome := by
  obtain ⟨held, hheld, hfin, u', hdecode, hsome⟩ := hrecorded
  rw [h.found] at hheld
  cases hheld
  rw [h.decoded] at hdecode
  cases hdecode
  exact ⟨h.metadata_eq ▸ hfin, hsome⟩

end Stored

/-- The steps of a lifecycle pass are in an order that keeps custody. -/
theorem custodyOutline_lifecycle (settings : Settings) (key : Key) (now : Instant) :
    Outline (custodyContract (.lifecycle settings key now)) key (fun _ => (IsGuarded · key))
      (IsRecorded · key) (fun s => s.find? (executionSlot key) = none) where
  guarded_later hlater hguarded := (hlater.rely key rfl).isGuarded hguarded
  recorded_later hlater hrecorded := (hlater.rely key rfl).isRecorded hrecorded
  bare_later hlater hnone := (hlater.rely key rfl).bare hnone
  guarded {s object u} hstored hfin := ⟨object, hstored.found, hstored.metadata_eq ▸ hfin⟩
  recorded hstored hguarded hsome := hstored.isRecorded hguarded hsome
  bare {s s' u} hs hinv hseen hdel hgone := by
    obtain ⟨s₀, object, hstored⟩ := hseen
    have hkey : u.status.execution.getD u.key = key := by
      cases hexecution : u.status.execution with
      | none => exact hstored.key_eq
      | some k => exact hstored.record.2 k hexecution
    rw [hkey] at hgone
    exact hgone fun execution found => (hinv.guarded found).1
  guard {s object u changed} hstored hchange := by
    obtain ⟨hcoherent, hrecorded⟩ := hstored.record
    cases eq_of_guard hchange
    exact hstored.change Metadata.key_addFinalizer (fun _ => Metadata.hasFinalizer_addFinalizer)
      (hcoherent.of_eq rfl rfl) hrecorded (.of_eq rfl rfl)
  release {s object u changed} hstored hbare hchange := by
    obtain ⟨hcoherent, hrecorded⟩ := hstored.record
    cases eq_of_release hchange
    -- there is no execution any more that could be left behind
    exact hstored.change rfl (fun found => by rw [hbare] at found; cases found)
      (hcoherent.of_eq rfl rfl) hrecorded (.of_eq rfl rfl)
  create {s u} created hs hinv hguarded hseen hnone := by
    obtain ⟨hinv, hadvances, hguarded, hundisturbed⟩ :=
      hinv.withNewExecution created hguarded (Resource.encode u.toExecution) rfl
    exact ⟨hinv, ⟨hadvances, hundisturbed⟩, hguarded⟩
  record _ {s object u changed _} hstored hguarded hchange := by
    have hrecords := WorkUnit.records_of_recordExecution hchange
    have hplace := (retains_recordExecution hchange).key
    have hfin : changed.metadata.hasFinalizer WorkUnit.finalizer := by
      rw [hrecords.metadata]
      exact hstored.hasFinalizer hguarded
    have hcoherent := hstored.record.1
    obtain ⟨hinv, hadvances, hundisturbed⟩ := hstored.change hplace (fun _ => hfin)
      (hrecords.coherent hcoherent)
      (fun k hk => Option.some.inj (hk.symm.trans hrecords.execution_eq))
      (hrecords.continues hcoherent)
    refine ⟨hinv, ⟨hadvances, hundisturbed⟩, fun {s'} hdel => ?_⟩
    have hstored' := hstored.withUnit hplace hinv
    refine ((hinv.deletions hdel).undisturbed key).isRecorded
      (hstored'.isRecorded ⟨_, hstored'.found, hfin⟩ ?_)
    show changed.status.execution.isSome
    rw [hrecords.execution_eq]
    rfl
  follow {s object u moved observation started now'} hstored hrecorded hmoved := by
    have hadvance := WorkUnit.advance_of_advance? hmoved
    obtain ⟨hfin, hsome⟩ := hstored.of_isRecorded hrecorded
    obtain ⟨hcoherent, hexecution⟩ := hstored.record
    exact hstored.change (congrArg Metadata.key hadvance.metadata)
      (fun _ => hadvance.metadata ▸ hfin) (hadvance.coherent hcoherent hsome)
      (fun k hk => hexecution k (hadvance.execution_eq.symm.trans hk)) hadvance.continues

/-- A work unit is coherent when it is created. -/
theorem coherent_workUnit (campaign : Campaign) (index : Nat) (batch : Batch) (now : Instant) :
    (Admission.workUnit campaign index batch now).Coherent := by
  have hholds : ∀ type, type ≠ WorkUnit.admitted → ¬ Condition.Holds type
      (Admission.workUnit campaign index batch now).status.conditions := by
    rintro type hne ⟨c, hc, htype, -⟩
    cases List.mem_singleton.1 hc
    exact hne htype.symm
  constructor
  · exact iff_of_false (fun h => by cases h) (fun h => by cases h)
  · exact iff_of_false (fun h => by cases h) (fun h => h rfl)
  · exact fun h => absurd rfl h
  · rfl
  · exact List.nodup_singleton _
  · exact iff_of_false (hholds _ (by decide)) (fun h => by cases h)
  · exact iff_of_false (hholds _ (by decide)) (fun h => by cases h)
  · exact iff_of_false (hholds _ (by decide)) (fun h => by cases h)

/-- An admission pass creates work units that have no execution yet. -/
theorem custodyOutline_admission (settings : Settings) (key : Key) (now : Instant) :
    Admission.Outline (custodyContract (.admission settings key now)) key
      fun _ _ _ => True where
  room_later _ _ := trivial
  room_of_succ _ := trivial
  room_of_list _ _ _ _ _ _ _ := trivial
  create_document {s k object campaign n} created hs hinv hnone hkey _ := by
    have hkept : Kept s (s.withNew created { kind := .configDocument, key := k } object) :=
      hinv.withNew created object (.inr rfl)
    obtain ⟨hinv, hguar⟩ := hkept.guar (.admission settings key now)
    exact ⟨hinv, hguar, trivial⟩
  change {s slot old object} hkind hs hinv hold hkey := by
    have hne : slot.kind ≠ .workUnit ∧ slot.kind ≠ .execution := by
      rcases hkind with hkind | hkind <;> rw [hkind] <;> decide
    obtain ⟨hinv, hguar⟩ := (hinv.withRevised object hne.1 hold fun h => absurd h hne.2).guar
      (.admission settings key now)
    exact ⟨hinv, hguar, fun _ _ => trivial⟩
  create_unit created index batch now hs hinv hseen _ hnone := by
    obtain ⟨hinv, hguar⟩ := (hinv.withNewUnit created (coherent_workUnit ..) rfl hnone).guar
      (.admission settings key now)
    exact ⟨hinv, hguar, trivial⟩

/-- What comes from outside keeps custody, and disturbs no lifecycle pass. -/
theorem Custody.serve (h : Custody s) (hs : s.Sound) {r : StoreRequest}
    (hr : Controller.IsOutside r) (now : Instant) : Kept s (s.serve now r).2 := by
  have hself : Kept s s := ⟨h, .refl s, fun key => .refl key s⟩
  refine hr.serve (P := Kept s) hself h.deletions ?_ ?_ now
  · intro slot object now hkind _ _
    exact h.withNew now object hkind
  · intro slot old object s' hkind hold hkey hdel
    have hne : slot.kind ≠ .workUnit := by
      rcases hkind with hkind | hkind | ⟨hkind, -⟩ <;> rw [hkind] <;> decide
    have hfin : slot.kind = .execution → object.metadata.finalizers = [] := by
      rcases hkind with hkind | hkind | ⟨-, hfin⟩
      · rw [hkind]; exact nofun
      · rw [hkind]; exact nofun
      · exact fun _ => hfin
    have hrevised := h.withRevised object hne hold hfin
    exact hrevised.trans hs (Store.Edit.revise object hold hkey).follows hdel.edits.follows
      (hrevised.custody.deletions hdel)

/-! ## Runs -/

/-- Lifecycle passes over the work unit at a key follow each other. -/
def custodyRules : Rules Controller.repertoire where
  excludes job job' := ∃ key, job.Follows key ∧ job'.Follows key
  outside := Controller.IsOutside

instance : DecidableRel custodyRules.excludes
  | .admission .., _ => isFalse (by rintro ⟨key, h, -⟩; exact h)
  | .lifecycle .., .admission .. => isFalse (by rintro ⟨key, -, h⟩; exact h)
  | .lifecycle _ key _, .lifecycle _ key' _ =>
    decidable_of_iff (key = key')
      ⟨fun h => ⟨key, rfl, h.symm⟩, fun ⟨_, h, h'⟩ => h.trans h'.symm⟩

instance : DecidablePred custodyRules.outside :=
  inferInstanceAs (DecidablePred Controller.IsOutside)

instance : DecidablePred custodyRules.during := inferInstanceAs (DecidablePred fun _ => True)

theorem custody_upheld :
    custodyRules.Upheld Custody (fun job => (custodyContract job).guar)
      (Task.Keeps custodyContract) := by
  refine .of_contracts custodyRules custodyContract .empty ?_ ?_ ?_
  · intro job s hs hduring hinv
    cases job with
    | admission settings target now =>
      exact (custodyOutline_admission settings target now).reconcile_keeps settings now
    | lifecycle settings target now =>
      exact (custodyOutline_lifecycle settings target now).reconcile_keeps settings now
  · intro job job' s s' hexcludes hguar key hfollows
    refine hguar.2 key fun hfollows' => ?_
    rcases hexcludes with h | h
    · exact h ⟨key, hfollows', hfollows⟩
    · exact h ⟨key, hfollows, hfollows'⟩
  · intro now r s hr hs hduring hinv
    have hkept := hinv.serve hs hr now
    exact ⟨hkept.custody, fun job key _ => hkept.undisturbed key⟩

variable {w w' : World Controller.repertoire}

theorem custody (hw : custodyRules.Reachable w) : Custody w.store := (custody_upheld.holds hw).1

theorem advances_of_step (hw : custodyRules.Reachable w) (hstep : custodyRules.Step w w') :
    Advances w.store w'.store := by
  have heffect := custody_upheld.effect hw hstep
  generalize w'.store = s' at heffect
  cases heffect with
  | none => exact .refl w.store
  | own hguar => exact hguar.1
  | outside now hr => exact ((custody hw).serve hw.sound hr now).advances

/-- What a step keeps of what is still stored is kept by a run. -/
theorem advances_of_steps (hw : custodyRules.Reachable w) (hsteps : custodyRules.Steps w w') :
    Advances w.store w'.store := by
  induction hsteps with
  | refl => exact .refl w.store
  | tail hsteps hstep ih =>
    exact ih.trans hw.sound (Rules.Steps.follows hsteps) hstep.move.edits.follows
      (advances_of_step (hw.of_steps hsteps) hstep)

/-- **No execution is left behind.** The work unit of an execution is stored, and held by its
finalizer, and no other execution is recorded in it. It is the same one as long as the execution
is the same. -/
theorem execution_has_unit (hw : custodyRules.Reachable w) :
    (∀ key execution, w.store.find? (executionSlot key) = some execution →
      ∃ unit, w.store.find? (unitSlot key) = some unit ∧
        unit.metadata.hasFinalizer WorkUnit.finalizer) ∧
    (∀ key unit, w.store.find? (unitSlot key) = some unit →
      ∃ u : WorkUnit, Resource.decode unit = .ok u ∧
        (u.status.execution = none ∨ u.status.execution = some u.key)) ∧
    ∀ w', custodyRules.Steps w w' → ∀ key execution execution' unit,
      w.store.find? (executionSlot key) = some execution →
      w'.store.find? (executionSlot key) = some execution' →
      execution.metadata.uid = execution'.metadata.uid →
      w.store.find? (unitSlot key) = some unit →
      ∃ unit', w'.store.find? (unitSlot key) = some unit' ∧
        unit.metadata.uid = unit'.metadata.uid := by
  have hcustody := custody hw
  refine ⟨fun key execution found => (hcustody.guarded found).2, fun key unit found => ?_,
    fun w' hsteps key execution execution' unit => (advances_of_steps hw hsteps).execution⟩
  obtain ⟨u, hdecode, -, hexecution⟩ := hcustody.record found
  refine ⟨u, hdecode, ?_⟩
  cases hsome : u.status.execution with
  | none => exact .inl rfl
  | some k => exact .inr (congrArg some (hexecution k hsome))

/-- After a start, and after the work unit has been requested to be deleted, too, the execution is
stored beside its work unit. -/
theorem execution_has_unit_sample :
    ∃ w w', custodyRules.Reachable w ∧ custodyRules.Steps w w' ∧
      ∃ execution execution' unit unit',
        w.store.find? (executionSlot Controller.sampleKey) = some execution ∧
        w'.store.find? (executionSlot Controller.sampleKey) = some execution' ∧
        w.store.find? (unitSlot Controller.sampleKey) = some unit ∧
        w'.store.find? (unitSlot Controller.sampleKey) = some unit' ∧
        unit.metadata.hasFinalizer WorkUnit.finalizer ∧ unit'.metadata.isDeleting ∧
        unit.metadata.uid = unit'.metadata.uid := by
  have hplay : (custodyRules.play {} Controller.sampleStart).any fun w =>
      (custodyRules.play w
        [.outside .epoch (.delete .workUnit Controller.sampleKey .background)]).any fun w' =>
        (w.store.find? (executionSlot Controller.sampleKey)).any fun execution =>
        (w'.store.find? (executionSlot Controller.sampleKey)).any fun execution' =>
        (w'.store.find? (unitSlot Controller.sampleKey)).any fun unit' =>
        execution.metadata.uid = execution'.metadata.uid ∧ unit'.metadata.isDeleting := by
    decide +kernel
  obtain ⟨w, hw, hplay⟩ := Rules.exists_of_play hplay
  obtain ⟨w', hsteps, hcheck⟩ := Rules.exists_of_play hplay
  obtain ⟨execution, found, hcheck⟩ := (Option.any_eq_true _ _).1 hcheck
  obtain ⟨execution', found', hcheck⟩ := (Option.any_eq_true _ _).1 hcheck
  obtain ⟨unit', hunit', hcheck⟩ := (Option.any_eq_true _ _).1 hcheck
  obtain ⟨huid, hdeleting⟩ := of_decide_eq_true hcheck
  obtain ⟨hguarded, -, hkept⟩ := execution_has_unit ⟨trivial, hw⟩
  obtain ⟨unit, hunit, hfin⟩ := hguarded Controller.sampleKey execution found
  obtain ⟨same, hsame, hunits⟩ :=
    hkept w' hsteps Controller.sampleKey _ _ _ found found' huid hunit
  cases hunit'.symm.trans hsame
  exact ⟨w, w', ⟨trivial, hw⟩, hsteps, execution, execution', unit, unit', found, found', hunit,
    hunit', hfin, hdeleting, hunits⟩

/-- **The record of a work unit** is coherent, and as long as the work unit is the same, the
record only goes forward. -/
theorem record_coherent (hw : custodyRules.Reachable w) :
    (∀ key object, w.store.find? (unitSlot key) = some object →
      ∃ u : WorkUnit, Resource.decode object = .ok u ∧ u.Coherent) ∧
    ∀ w', custodyRules.Steps w w' → ∀ key key' object object' (u u' : WorkUnit),
      w.store.find? (unitSlot key) = some object →
      w'.store.find? (unitSlot key') = some object' →
      object.metadata.uid = object'.metadata.uid →
      Resource.decode object = .ok u → Resource.decode object' = .ok u' →
      key' = key ∧ u.Continues u' := by
  refine ⟨fun key object found => ?_,
    fun w' hsteps key key' object object' u u' found found' huid hdecode hdecode' => ?_⟩
  · obtain ⟨u, hdecode, hcoherent, -⟩ := (custody hw).record found
    exact ⟨u, hdecode, hcoherent⟩
  · have heq : unitSlot key' = unitSlot key :=
      hsteps.follows.find?_of_uid_eq hw.sound found found' huid.symm
    cases heq
    obtain ⟨u'', hdecode'', hcontinues⟩ :=
      (advances_of_steps hw hsteps).unit found found' huid hdecode
    rw [hdecode'] at hdecode''
    cases hdecode''
    exact ⟨rfl, hcontinues⟩

/-- A work unit that is pending after a start has succeeded in the end. -/
theorem record_coherent_sample :
    ∃ w w', custodyRules.Reachable w ∧ custodyRules.Steps w w' ∧
      ∃ (object object' : Object) (u u' : WorkUnit),
        w.store.find? (unitSlot Controller.sampleKey) = some object ∧
        w'.store.find? (unitSlot Controller.sampleKey) = some object' ∧
        Resource.decode object = .ok u ∧ Resource.decode object' = .ok u' ∧
        u.status.phase = .pending ∧ u.status.execution.isSome ∧ u'.status.phase = .succeeded ∧
        u.Continues u' ∧ u'.Coherent := by
  have hplay : (custodyRules.play {} Controller.sampleStart).any fun w =>
      (custodyRules.play w Controller.sampleEnd).any fun w' =>
        (w.store.find? (unitSlot Controller.sampleKey)).any fun object =>
        (w'.store.find? (unitSlot Controller.sampleKey)).any fun object' =>
        (Resource.decode object).toOption.any fun u : WorkUnit =>
        (Resource.decode object').toOption.any fun u' : WorkUnit =>
        object.metadata.uid = object'.metadata.uid ∧ u.status.phase = .pending ∧
          u.status.execution.isSome ∧ u'.status.phase = .succeeded := by decide +kernel
  obtain ⟨w, hw, hplay⟩ := Rules.exists_of_play hplay
  obtain ⟨w', hsteps, hcheck⟩ := Rules.exists_of_play hplay
  obtain ⟨object, found, hcheck⟩ := (Option.any_eq_true _ _).1 hcheck
  obtain ⟨object', found', hcheck⟩ := (Option.any_eq_true _ _).1 hcheck
  obtain ⟨u, hdecode, hcheck⟩ := (Option.any_eq_true _ _).1 hcheck
  obtain ⟨u', hdecode', hcheck⟩ := (Option.any_eq_true _ _).1 hcheck
  obtain ⟨huid, hpending, hsome, hsucceeded⟩ := of_decide_eq_true hcheck
  replace hdecode := Resource.eq_ok_of_toOption_decode hdecode
  replace hdecode' := Resource.eq_ok_of_toOption_decode hdecode'
  have hreachable : custodyRules.Reachable w := ⟨trivial, hw⟩
  obtain ⟨-, hcontinues⟩ := (record_coherent hreachable).2 w' hsteps _ _ _ _ u u' found found'
    huid hdecode hdecode'
  obtain ⟨same, hsame, hcoherent⟩ :=
    (record_coherent (hreachable.of_steps hsteps)).1 _ object' found'
  cases hdecode'.symm.trans hsame
  exact ⟨w, w', hreachable, hsteps, object, object', u, u', found, found', hdecode, hdecode',
    hpending, hsome, hsucceeded, hcontinues, hcoherent⟩

end Lifecycle
end CampaignControl
