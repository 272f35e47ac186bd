import CampaignControl.Proofs.Lifecycle.Runs

/-!
# The owners of executions

Where executions keep their owners, the one of an execution is the work unit at its key
(`Lifecycle.Bound`). A pass creates an execution for the work unit that it has read, and by then
another one could be at this key. But the finalizer has been there since the pass read it, so that
it is still the same: beside custody, the outline of a pass has to remember the identity of the work
unit that is guarded (`Lifecycle.bondOutline_lifecycle`).
-/

namespace CampaignControl
namespace Lifecycle

variable {s s' : Store} {key : Key} {object : Object} {u changed : WorkUnit} {uid : Option Uid}

/-- Custody, where executions are owned by the work units at their keys, if they have an owner. -/
structure Bound (s : Store) : Prop where
  custody : Custody s
  owner : ∀ {key execution unit owner}, s.find? (executionSlot key) = some execution →
    s.find? (unitSlot key) = some unit → execution.metadata.owner = some owner →
    unit.metadata.uid = some owner.uid

/-- The work unit at a key has the finalizer and this identity. -/
def IsGuardedAs (s : Store) (key : Key) (uid : Option Uid) : Prop :=
  ∃ object, s.find? (unitSlot key) = some object ∧
    object.metadata.hasFinalizer WorkUnit.finalizer ∧ object.metadata.uid = uid

theorem IsGuardedAs.isGuarded (h : IsGuardedAs s key uid) : IsGuarded s key := by
  obtain ⟨object, found, hfin, -⟩ := h
  exact ⟨object, found, hfin⟩

theorem Undisturbed.isGuardedAs (h : Undisturbed key s s') (hguarded : IsGuardedAs s key uid) :
    IsGuardedAs s' key uid := by
  obtain ⟨object, found, hfin, huid⟩ := hguarded
  obtain ⟨object', found', hfades⟩ := h.unit found hfin
  exact ⟨object', found', hfades.hasFinalizer _ ▸ hfin, hfades.uid.trans huid⟩

namespace Bound

theorem empty : Bound {} := ⟨.empty, fun h => by cases h⟩

variable (h : Bound s)
include h

/-- Work units keep their identities, and executions their owners. -/
theorem of_kept (hcustody : Custody s')
    (hunit : ∀ {key unit'}, s'.find? (unitSlot key) = some unit' →
      ∃ unit, s.find? (unitSlot key) = some unit ∧ unit'.metadata.uid = unit.metadata.uid)
    (hexecution : ∀ {key execution' owner}, s'.find? (executionSlot key) = some execution' →
      execution'.metadata.owner = some owner → ∃ execution,
        s.find? (executionSlot key) = some execution ∧ execution.metadata.owner = some owner) :
    Bound s' where
  custody := hcustody
  owner hexecution' hunit' howner' := by
    obtain ⟨unit, found, huid⟩ := hunit hunit'
    obtain ⟨execution, hexecution, howner⟩ := hexecution hexecution' howner'
    exact huid.trans (h.owner hexecution found howner)

theorem deletions (hdel : s.Deletions s') : Bound s' := by
  refine h.of_kept (h.custody.deletions hdel).custody (fun found' => ?_) fun found' howner' => ?_
  · obtain ⟨unit, found, hfades⟩ := hdel.fades_of_find? found'
    exact ⟨unit, found, hfades.uid⟩
  · obtain ⟨execution, found, hfades⟩ := hdel.fades_of_find? found'
    rcases hfades.owner with heq | heq
    · exact ⟨execution, found, heq ▸ howner'⟩
    · rw [heq] at howner'
      cases howner'

/-- Something else than a work unit or an execution is created. -/
theorem withNew {slot : Slot} (now : Instant) (object : Object)
    (hkind : slot.kind = .campaign ∨ slot.kind = .configDocument) :
    Bound (s.withNew now slot object) := by
  have hother : ∀ {other o'}, other.kind = .workUnit ∨ other.kind = .execution →
      (s.withNew now slot object).find? other = some o' → s.find? other = some o' := by
    intro other o' hother found
    rw [Store.find?_withNew, if_neg] at found
    · exact found
    · rintro rfl
      rcases hkind with hkind | hkind <;> rw [hkind] at hother <;>
        rcases hother with h | h <;> cases h
  refine h.of_kept (h.custody.withNew now object hkind).custody ?_ ?_
  · exact fun found => ⟨_, hother (.inl rfl) found, rfl⟩
  · exact fun found howner => ⟨_, hother (.inr rfl) found, howner⟩

/-- Something else than a work unit is replaced. An execution keeps its owner. -/
theorem withRevised {slot : Slot} {old : Object} (object : Object)
    (hkind : slot.kind ≠ .workUnit) (hold : s.find? slot = some old)
    (hsame : slot.kind = .execution → object.metadata.finalizers = [] ∧
      object.metadata.owner = old.metadata.owner) :
    Bound (s.withRevised slot old object) := by
  have hcustody := h.custody.withRevised object hkind hold fun hkind => (hsame hkind).1
  refine h.of_kept hcustody.custody (fun {key unit'} found => ?_)
    fun {key execution' owner} found howner => ?_
  · rw [Store.find?_withRevised, if_neg fun heq => hkind (congrArg Slot.kind heq)] at found
    exact ⟨unit', found, rfl⟩
  · rw [Store.find?_withRevised] at found
    split at found
    · next heq =>
      subst heq
      cases found
      exact ⟨old, hold, (hsame rfl).2 ▸ howner⟩
    · exact ⟨execution', found, howner⟩

/-- A work unit is created. There is no execution at its key. -/
theorem withNewUnit (now : Instant) (hcoherent : u.Coherent) (hbare : u.status.execution = none)
    (hnone : s.find? (Resource.slot u) = none) :
    Bound (s.withNew now (Resource.slot u) (Resource.encode u)) where
  custody := (h.custody.withNewUnit now hcoherent hbare hnone).custody
  owner {key _ _ _} hexecution hunit howner := by
    rw [Store.find?_withNew, if_neg (by exact fun heq => by cases heq)] at hexecution
    rw [Store.find?_withNew] at hunit
    split at hunit
    · next heq =>
      obtain ⟨-, unit, found, -⟩ := h.custody.guarded hexecution
      rw [heq, found] at hnone
      cases hnone
    · exact h.owner hexecution hunit howner

/-- An execution is created for a work unit that is held. -/
theorem withNewExecution (now : Instant) (hguarded : IsGuardedAs s key u.metadata.uid) :
    Bound (s.withNew now (executionSlot key) (Resource.encode u.toExecution)) where
  custody := (h.custody.withNewExecution now hguarded.isGuarded _ rfl).1
  owner {other _ _ owner} hexecution hunit howner := by
    rw [Store.find?_withNew, if_neg (by exact fun heq => by cases heq)] at hunit
    rw [Store.find?_withNew] at hexecution
    split at hexecution
    · next heq =>
      cases heq
      cases hexecution
      obtain ⟨unit, found, -, huid⟩ := hguarded
      cases found.symm.trans hunit
      have hname : u.metadata.uid.map (fun uid => Owner.mk Kind.workUnit.name u.metadata.key.name
          uid) = some owner := howner
      obtain ⟨uid, huid', rfl⟩ := Option.map_eq_some_iff.1 hname
      exact huid.trans huid'
    · exact h.owner hexecution hunit howner

end Bound

/-- A work unit is changed, and keeps its identity. -/
theorem Stored.bound (h : Stored Bound key s object u)
    (hcustody : Custody (Lifecycle.withUnit s key object changed)) :
    Bound (Lifecycle.withUnit s key object changed) := by
  refine h.inv.of_kept hcustody (fun {other unit'} found => ?_)
    fun {other execution' owner} found howner => ?_
  · rw [Store.find?_withRevised] at found
    split at found
    · next heq =>
      cases heq
      cases found
      exact ⟨object, h.found, rfl⟩
    · exact ⟨unit', found, rfl⟩
  · rw [Store.find?_withRevised, if_neg (by exact fun heq => by cases heq)] at found
    exact ⟨execution', found, howner⟩

theorem Stored.custody (h : Stored Bound key s object u) : Stored Custody key s object u :=
  ⟨h.sound, h.inv.custody, h.found, h.decoded⟩

/-! ## Contracts -/

/-- The contract of custody, for what is bound. -/
def bondContract (job : Controller.Job) : Contract (fun _ => True) Bound where
  rely := (custodyContract job).rely
  guar := (custodyContract job).guar
  rely_refl := (custodyContract job).rely_refl
  rely_trans := (custodyContract job).rely_trans
  guar_refl := (custodyContract job).guar_refl
  guar_trans := (custodyContract job).guar_trans
  deletions hs h hdel := ⟨h.deletions hdel, ((custodyContract job).deletions hs h.custody hdel).2⟩

theorem bondOutline_lifecycle (settings : Settings) (key : Key) (now : Instant) :
    Outline (bondContract (.lifecycle settings key now)) key (fun uid s => IsGuardedAs s key uid)
      (IsRecorded · key) (fun s => s.find? (executionSlot key) = none) where
  guarded_later hlater hguarded := (hlater.rely key rfl).isGuardedAs hguarded
  recorded_later hlater hrecorded := (hlater.rely key rfl).isRecorded hrecorded
  bare_later hlater hnone := (hlater.rely key rfl).bare hnone
  guarded {s object u} hstored hfin :=
    ⟨object, hstored.found, hstored.metadata_eq ▸ hfin, congrArg _ hstored.metadata_eq.symm⟩
  recorded hstored hguarded hsome := hstored.custody.isRecorded hguarded.isGuarded hsome
  bare hs hinv hseen hdel hgone := by
    obtain ⟨s₀, object, hstored⟩ := hseen
    exact (custodyOutline_lifecycle settings key now).bare hs hinv.custody
      hstored.custody.seen hdel hgone
  guard hstored hchange := by
    obtain ⟨hcustody, hguar⟩ :=
      (custodyOutline_lifecycle settings key now).guard hstored.custody hchange
    exact ⟨hstored.bound hcustody, hguar⟩
  release hstored hbare hchange := by
    obtain ⟨hcustody, hguar⟩ :=
      (custodyOutline_lifecycle settings key now).release hstored.custody hbare hchange
    exact ⟨hstored.bound hcustody, hguar⟩
  create {s u} created hs hinv hguarded hseen hnone := by
    obtain ⟨s₀, object, hstored⟩ := hseen
    obtain ⟨-, hguar, -⟩ := (custodyOutline_lifecycle settings key now).create created hs
      hinv.custody hguarded.isGuarded hstored.custody.seen hnone
    refine ⟨hinv.withNewExecution created hguarded, hguar, ?_⟩
    obtain ⟨unit, found, hfin, huid⟩ := hguarded
    refine ⟨unit, ?_, hfin, huid⟩
    rw [Store.find?_withNew, if_neg (by exact fun heq => by cases heq)]
    exact found
  record uid {_ _ _ _ _} hstored hguarded hchange := by
    obtain ⟨hcustody, hguar, hrecorded⟩ := (custodyOutline_lifecycle settings key now).record uid
      hstored.custody hguarded.isGuarded hchange
    exact ⟨hstored.bound hcustody, hguar, hrecorded⟩
  follow hstored hrecorded hmoved := by
    obtain ⟨hcustody, hguar⟩ :=
      (custodyOutline_lifecycle settings key now).follow hstored.custody hrecorded hmoved
    exact ⟨hstored.bound hcustody, hguar⟩

theorem bondOutline_admission (settings : Settings) (key : Key) (now : Instant) :
    Admission.Outline (bondContract (.admission settings key now)) key fun _ _ _ => True where
  room_later _ _ := trivial
  room_of_succ _ := trivial
  room_of_list _ _ _ _ _ _ _ := trivial
  create_document {s k object campaign n} created hs hinv hnone hkey _ := by
    have hkept : Kept s (s.withNew created { kind := .configDocument, key := k } object) :=
      hinv.custody.withNew created object (.inr rfl)
    exact ⟨hinv.withNew created object (.inr rfl),
      (hkept.guar (.admission settings key now)).2, trivial⟩
  change {s slot old object} hkind hs hinv hold hkey := by
    have hne : slot.kind ≠ .workUnit ∧ slot.kind ≠ .execution := by
      rcases hkind with hkind | hkind <;> rw [hkind] <;> decide
    have hkept := hinv.custody.withRevised object hne.1 hold fun h => absurd h hne.2
    exact ⟨hinv.withRevised object hne.1 hold fun h => absurd h hne.2,
      (hkept.guar (.admission settings key now)).2, fun _ _ => trivial⟩
  create_unit created index batch now hs hinv hseen _ hnone := by
    have hkept := hinv.custody.withNewUnit created (coherent_workUnit ..) rfl hnone
    exact ⟨hinv.withNewUnit created (coherent_workUnit ..) rfl hnone,
      (hkept.guar (.admission settings key _)).2, trivial⟩

end Lifecycle
end CampaignControl
