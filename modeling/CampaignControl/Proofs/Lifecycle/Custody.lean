import CampaignControl.Proofs.Admission.Outline
import CampaignControl.Proofs.Controller
import CampaignControl.Proofs.Lifecycle.Outline

/-!
# The custody of executions

An execution is in the custody of the work unit at its key: as long as it is stored, the work unit
is held by its finalizer. The record of every work unit is coherent (`Lifecycle.Custody`), and goes
on from what it was before (`Lifecycle.Advances`). Here is what keeps it so: deletions, the changes
that others make (`Lifecycle.Kept`), and those of a lifecycle pass.

The order of the steps of a lifecycle pass is what this depends on. The finalizer is there before
the execution is created, the execution is recorded before its phase is followed, and it has gone
before the finalizer is taken away. A work unit that is held cannot disappear between two of
these steps, and nobody else creates an execution for it (`Lifecycle.Undisturbed`).
-/

namespace CampaignControl
namespace Lifecycle

variable {s s' s'' : Store} {key : Key} {object : Object} {u changed : WorkUnit}

/-! ## Custody -/

/-- A work unit with the finalizer is stored at a key. -/
def IsGuarded (s : Store) (key : Key) : Prop :=
  ∃ object, s.find? (unitSlot key) = some object ∧
    object.metadata.hasFinalizer WorkUnit.finalizer

/-- Executions are in the custody of work units whose records are coherent. -/
structure Custody (s : Store) : Prop where
  guarded : ∀ {key execution}, s.find? (executionSlot key) = some execution →
    execution.metadata.finalizers = [] ∧ IsGuarded s key
  record : ∀ {key object}, s.find? (unitSlot key) = some object →
    ∃ u : WorkUnit, Resource.decode object = .ok u ∧ u.Coherent ∧
      ∀ k, u.status.execution = some k → k = u.key

/-- What the lifecycle pass over the work unit at a key has to rely on. -/
structure Undisturbed (key : Key) (s s' : Store) : Prop where
  unit : ∀ {object}, s.find? (unitSlot key) = some object →
    object.metadata.hasFinalizer WorkUnit.finalizer →
    ∃ object', s'.find? (unitSlot key) = some object' ∧ object.Fades object'
  bare : s.find? (executionSlot key) = none → s'.find? (executionSlot key) = none

/-- Work units and executions that are still stored have gone on as they should. -/
structure Advances (s s' : Store) : Prop where
  unit : ∀ {key object object'}, s.find? (unitSlot key) = some object →
    s'.find? (unitSlot key) = some object' → object.metadata.uid = object'.metadata.uid →
    ∀ {u : WorkUnit}, Resource.decode object = .ok u →
      ∃ u', Resource.decode object' = .ok u' ∧ u.Continues u'
  /-- The work unit of an execution is still stored, too. -/
  execution : ∀ {key execution execution' unit}, s.find? (executionSlot key) = some execution →
    s'.find? (executionSlot key) = some execution' →
    execution.metadata.uid = execution'.metadata.uid → s.find? (unitSlot key) = some unit →
    ∃ unit', s'.find? (unitSlot key) = some unit' ∧ unit.metadata.uid = unit'.metadata.uid

/-- What anybody may do beside the lifecycle pass over a work unit. -/
structure Kept (s s' : Store) : Prop where
  custody : Custody s'
  advances : Advances s s'
  undisturbed : ∀ key, Undisturbed key s s'

namespace Undisturbed

theorem of_eq (hunit : s'.find? (unitSlot key) = s.find? (unitSlot key))
    (hbare : s.find? (executionSlot key) = none → s'.find? (executionSlot key) = none) :
    Undisturbed key s s' :=
  ⟨fun {object} found _ => ⟨object, hunit.trans found, .refl object⟩, hbare⟩

theorem refl (key : Key) (s : Store) : Undisturbed key s s := .of_eq rfl id

theorem trans (h : Undisturbed key s s') (h' : Undisturbed key s' s'') :
    Undisturbed key s s'' where
  unit found hfin := by
    obtain ⟨object', found', hfades⟩ := h.unit found hfin
    obtain ⟨object'', found'', hfades'⟩ := h'.unit found' (hfades.hasFinalizer _ ▸ hfin)
    exact ⟨object'', found'', hfades.trans hfades'⟩
  bare hnone := h'.bare (h.bare hnone)

/-- What is held stays so. -/
theorem isGuarded (h : Undisturbed key s s') (hguarded : IsGuarded s key) :
    IsGuarded s' key := by
  obtain ⟨object, found, hfin⟩ := hguarded
  obtain ⟨object', found', hfades⟩ := h.unit found hfin
  exact ⟨object', found', hfades.hasFinalizer _ ▸ hfin⟩

end Undisturbed

namespace Advances

/-- The slots of work units are as they were. -/
theorem of_eq (hunit : ∀ key, s'.find? (unitSlot key) = s.find? (unitSlot key)) :
    Advances s s' where
  unit {key object object'} found found' _ u hdecode := by
    rw [hunit key, found] at found'
    cases found'
    exact ⟨u, hdecode, .of_eq rfl rfl⟩
  execution {key _ _ unit} _ _ _ found := ⟨unit, (hunit key).trans found, rfl⟩

theorem refl (s : Store) : Advances s s := .of_eq fun _ => rfl

theorem trans (hs : s.Sound) (hfollows : s.Follows s') (hfollows' : s'.Follows s'')
    (h : Advances s s') (h' : Advances s' s'') : Advances s s'' where
  unit found found'' huid u hdecode := by
    obtain ⟨object', found', huid'⟩ := hfollows.exists_between hfollows' hs found found'' huid
    obtain ⟨u', hdecode', hcontinues⟩ := h.unit found found' (huid.trans huid'.symm) hdecode
    obtain ⟨u'', hdecode'', hcontinues'⟩ := h'.unit found' found'' huid' hdecode'
    exact ⟨u'', hdecode'', hcontinues.trans hcontinues'⟩
  execution found found'' huid hunit := by
    obtain ⟨execution', found', huid'⟩ := hfollows.exists_between hfollows' hs found found'' huid
    obtain ⟨unit', hunit', heq⟩ := h.execution found found' (huid.trans huid'.symm) hunit
    obtain ⟨unit'', hunit'', heq'⟩ := h'.execution found' found'' huid' hunit'
    exact ⟨unit'', hunit'', heq.trans heq'⟩

end Advances

theorem Kept.trans (hs : s.Sound) (hfollows : s.Follows s') (hfollows' : s'.Follows s'')
    (h : Kept s s') (h' : Kept s' s'') : Kept s s'' where
  custody := h'.custody
  advances := h.advances.trans hs hfollows hfollows' h'.advances
  undisturbed key := (h.undisturbed key).trans (h'.undisturbed key)

/-! ## Changes that keep custody -/

namespace Custody

theorem empty : Custody {} where
  guarded h := by cases h
  record h := by cases h

variable (h : Custody s)
include h

/-- Work units are left alone, and executions are stored beside guarded ones only. -/
theorem of_eq (hunit : ∀ key, s'.find? (unitSlot key) = s.find? (unitSlot key))
    (hexecution : ∀ {key execution}, s'.find? (executionSlot key) = some execution →
      execution.metadata.finalizers = [] ∧ IsGuarded s key) : Custody s' where
  guarded {key _} found := by
    obtain ⟨hfin, object, hobject, hguarded⟩ := hexecution found
    exact ⟨hfin, object, (hunit key).trans hobject, hguarded⟩
  record {key _} found := h.record ((hunit key).symm.trans found)

theorem deletions (hdel : s.Deletions s') : Kept s s' := by
  have hkept : ∀ {key object}, s.find? (unitSlot key) = some object →
      object.metadata.hasFinalizer WorkUnit.finalizer →
      ∃ object', s'.find? (unitSlot key) = some object' ∧ object.Fades object' :=
    fun found hfin => hdel.fades_of_finalizers found (Metadata.ne_nil_of_hasFinalizer hfin)
  have hundisturbed : ∀ key, Undisturbed key s s' :=
    fun key => ⟨hkept, fun hnone => hdel.find?_none hnone⟩
  have hdecode : ∀ {o o' : Object} {u : WorkUnit}, o.Fades o' → Resource.decode o = .ok u →
      Resource.decode o' = .ok (Resource.setMetadata o'.metadata u) := by
    intro o o' u hfades hu
    rw [Resource.decode_eq_map hfades.body, hu]
    rfl
  refine ⟨⟨fun {key execution'} found' => ?_, fun {key object'} found' => ?_⟩,
    ⟨fun {key object object'} found found' _ u hu => ?_,
      fun {key execution execution' unit} found _ _ hunit => ?_⟩, hundisturbed⟩
  · obtain ⟨execution, found, hfades⟩ := hdel.fades_of_find? found'
    obtain ⟨hfin, hguarded⟩ := h.guarded found
    exact ⟨hfades.finalizers.trans hfin, (hundisturbed key).isGuarded hguarded⟩
  · obtain ⟨object, found, hfades⟩ := hdel.fades_of_find? found'
    obtain ⟨u, hu, hcoherent, hexecution⟩ := h.record found
    refine ⟨_, hdecode hfades hu, hcoherent.of_eq rfl rfl, fun k hk => ?_⟩
    rw [hexecution k hk]
    exact (Resource.key_of_decode hu).trans hfades.key.symm
  · obtain ⟨old, hold, hfades⟩ := hdel.fades_of_find? found'
    rw [found] at hold
    cases hold
    exact ⟨_, hdecode hfades hu, .of_eq rfl rfl⟩
  · obtain ⟨-, held, hheld, hfin⟩ := h.guarded found
    rw [hunit] at hheld
    cases hheld
    obtain ⟨unit', hunit', hfades⟩ := hkept hunit hfin
    exact ⟨unit', hunit', hfades.uid.symm⟩

/-- Something else than a work unit or an execution is created. -/
theorem withNew {slot : Slot} (now : Instant) (object : Object)
    (hkind : slot.kind = .campaign ∨ slot.kind = .configDocument) :
    Kept s (s.withNew now slot object) := by
  have hother : ∀ {other : Slot}, other.kind = .workUnit ∨ other.kind = .execution →
      (s.withNew now slot object).find? other = s.find? other := by
    intro other hother
    rw [Store.find?_withNew, if_neg]
    rintro rfl
    rcases hkind with hkind | hkind <;> rw [hkind] at hother <;>
      rcases hother with h | h <;> cases h
  have hunit : ∀ key, (s.withNew now slot object).find? (unitSlot key) = s.find? (unitSlot key) :=
    fun key => hother (.inl rfl)
  refine ⟨h.of_eq hunit fun found => ?_, .of_eq hunit, fun key => .of_eq (hunit key) ?_⟩
  · rw [hother (.inr rfl)] at found
    exact h.guarded found
  · rw [hother (.inr rfl)]
    exact id

/-- Something else than a work unit is replaced. -/
theorem withRevised {slot : Slot} {old : Object} (object : Object)
    (hkind : slot.kind ≠ .workUnit) (hold : s.find? slot = some old)
    (hfin : slot.kind = .execution → object.metadata.finalizers = []) :
    Kept s (s.withRevised slot old object) := by
  have hunit : ∀ key,
      (s.withRevised slot old object).find? (unitSlot key) = s.find? (unitSlot key) := by
    intro key
    rw [Store.find?_withRevised, if_neg]
    rintro rfl
    exact hkind rfl
  refine ⟨h.of_eq hunit fun {key _} found => ?_, .of_eq hunit, fun key => .of_eq (hunit key) ?_⟩
  · rw [Store.find?_withRevised] at found
    split at found
    · next heq =>
      subst heq
      cases found
      exact ⟨hfin rfl, (h.guarded hold).2⟩
    · exact h.guarded found
  · intro hnone
    rw [Store.find?_withRevised, if_neg]
    · exact hnone
    · rintro rfl
      rw [hold] at hnone
      cases hnone

/-- A work unit is created. There is no execution for it yet. -/
theorem withNewUnit (now : Instant) (hcoherent : u.Coherent) (hbare : u.status.execution = none)
    (hnone : s.find? (Resource.slot u) = none) :
    Kept s (s.withNew now (Resource.slot u) (Resource.encode u)) := by
  have hslot : Resource.slot u = unitSlot u.key := rfl
  rw [hslot] at hnone ⊢
  have hexecution : ∀ key, (s.withNew now (unitSlot u.key) (Resource.encode u)).find?
      (executionSlot key) = s.find? (executionSlot key) := by
    intro key
    rw [Store.find?_withNew, if_neg]
    exact fun heq => by cases heq
  have hkept : ∀ {key object}, s.find? (unitSlot key) = some object →
      (s.withNew now (unitSlot u.key) (Resource.encode u)).find? (unitSlot key) = some object :=
    fun found => Store.find?_withNew_of_some hnone _ found
  refine ⟨⟨fun {key execution} found => ?_, fun {key object} found => ?_⟩,
    ⟨fun {key object object'} found found' _ u hu => ?_,
      fun {key _ _ unit} _ _ _ found => ⟨unit, hkept found, rfl⟩⟩,
    fun key => ⟨fun {object} found _ => ⟨object, hkept found, .refl object⟩,
      fun hnone => (hexecution key).trans hnone⟩⟩
  · rw [hexecution] at found
    obtain ⟨hfin, object, found, hguarded⟩ := h.guarded found
    exact ⟨hfin, object, hkept found, hguarded⟩
  · rw [Store.find?_withNew] at found
    split at found
    · cases found
      refine ⟨_, Resource.decode_stored _ _, hcoherent.of_eq rfl rfl, fun k hk => ?_⟩
      replace hk : u.status.execution = some k := hk
      rw [hbare] at hk
      cases hk
    · exact h.record found
  · rw [hkept found] at found'
    cases found'
    exact ⟨u, hu, .of_eq rfl rfl⟩

/-- An execution is created for a work unit that is held. -/
theorem withNewExecution (now : Instant) (hguarded : IsGuarded s key) (execution : Object)
    (hfin : execution.metadata.finalizers = []) :
    Custody (s.withNew now (executionSlot key) execution) ∧
      Advances s (s.withNew now (executionSlot key) execution) ∧
      IsGuarded (s.withNew now (executionSlot key) execution) key ∧
      ∀ other, key ≠ other → Undisturbed other s (s.withNew now (executionSlot key) execution) := by
  have hunit : ∀ other, (s.withNew now (executionSlot key) execution).find? (unitSlot other) =
      s.find? (unitSlot other) := by
    intro other
    rw [Store.find?_withNew, if_neg]
    exact fun heq => by cases heq
  refine ⟨h.of_eq hunit fun {other _} found => ?_, .of_eq hunit, ?_,
    fun other hne => .of_eq (hunit other) fun hnone => ?_⟩
  · rw [Store.find?_withNew] at found
    split at found
    · next heq => cases heq; cases found; exact ⟨hfin, hguarded⟩
    · exact h.guarded found
  · obtain ⟨object, found, hfin⟩ := hguarded
    exact ⟨object, (hunit key).trans found, hfin⟩
  · rw [Store.find?_withNew, if_neg]
    · exact hnone
    · exact fun heq => hne (congrArg Slot.key heq)

end Custody

/-! ## Changes of a work unit -/

theorem Stored.record (h : Stored Custody key s object u) :
    u.Coherent ∧ ∀ k, u.status.execution = some k → k = key := by
  obtain ⟨u', hdecode, hcoherent, hexecution⟩ := h.inv.record h.found
  rw [h.decoded] at hdecode
  cases hdecode
  exact ⟨hcoherent, fun k hk => (hexecution k hk).trans h.key_eq⟩

/-- A work unit is changed. It must not lose its finalizer while its execution is stored. -/
theorem Stored.change (h : Stored Custody key s object u)
    (hkey : changed.metadata.key = u.metadata.key)
    (hfin : ∀ {execution}, s.find? (executionSlot key) = some execution →
      changed.metadata.hasFinalizer WorkUnit.finalizer)
    (hcoherent : changed.Coherent) (hrecorded : ∀ k, changed.status.execution = some k → k = key)
    (hcontinues : u.Continues changed) :
    Custody (Lifecycle.withUnit s key object changed) ∧
      Advances s (Lifecycle.withUnit s key object changed) ∧
      ∀ other, key ≠ other → Undisturbed other s (Lifecycle.withUnit s key object changed) := by
  have hself : (Lifecycle.withUnit s key object changed).find? (unitSlot key) =
      some (s.revised object (Resource.encode changed)) := by
    rw [Store.find?_withRevised, if_pos rfl]
  have hunit : ∀ {other}, key ≠ other →
      (Lifecycle.withUnit s key object changed).find? (unitSlot other) =
        s.find? (unitSlot other) := by
    intro other hne
    rw [Store.find?_withRevised, if_neg]
    exact fun heq => hne (congrArg Slot.key heq)
  have hexecution : ∀ other,
      (Lifecycle.withUnit s key object changed).find? (executionSlot other) =
        s.find? (executionSlot other) := by
    intro other
    rw [Store.find?_withRevised, if_neg]
    exact fun heq => by cases heq
  have hdecode := Resource.decode_stored
    (s.revised object (Resource.encode changed)).metadata changed
  refine ⟨⟨fun {other _} found => ?_, fun {other _} found => ?_⟩,
    ⟨fun {other o o'} found found' _ u₁ hu₁ => ?_, fun {other _ _ unit} _ _ _ found => ?_⟩,
    fun other hne => .of_eq (hunit hne) fun hnone => (hexecution other).trans hnone⟩
  · rw [hexecution] at found
    obtain ⟨hnil, held, hheld, hguarded⟩ := h.inv.guarded found
    refine ⟨hnil, ?_⟩
    by_cases heq : key = other
    · subst heq
      exact ⟨_, hself, hfin found⟩
    · exact ⟨held, (hunit heq).trans hheld, hguarded⟩
  · by_cases heq : key = other
    · subst heq
      rw [hself] at found
      cases found
      refine ⟨_, hdecode, hcoherent.of_eq rfl rfl, fun k hk => ?_⟩
      exact (hrecorded k hk).trans (hkey.trans h.key_eq).symm
    · rw [hunit heq] at found
      exact h.inv.record found
  · by_cases heq : key = other
    · subst heq
      rw [hself] at found'
      cases found'
      rw [h.found] at found
      cases found
      rw [h.decoded] at hu₁
      cases hu₁
      exact ⟨_, hdecode, hcontinues.trans (.of_eq rfl rfl)⟩
    · rw [hunit heq, found] at found'
      cases found'
      exact ⟨u₁, hu₁, .of_eq rfl rfl⟩
  · by_cases heq : key = other
    · subst heq
      rw [h.found] at found
      cases found
      exact ⟨_, hself, rfl⟩
    · exact ⟨unit, (hunit heq).trans found, rfl⟩

end Lifecycle
end CampaignControl
