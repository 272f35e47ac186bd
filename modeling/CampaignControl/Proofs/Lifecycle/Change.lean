import CampaignControl.Proofs.Concurrency.Requests
import CampaignControl.Proofs.Lifecycle.Record

/-!
# The changes of a work unit

A lifecycle pass guards a work unit with the finalizer, records its execution, follows what is
observed of it, and releases it in the end. No change moves a work unit, gives it to another
owner or brings it back to life (`Lifecycle.Retains`).
-/

namespace CampaignControl

namespace Metadata

variable {m : Metadata} {finalizer : String}

@[simp] theorem key_addFinalizer : (m.addFinalizer finalizer).key = m.key := by
  unfold addFinalizer
  split <;> rfl

@[simp] theorem version_addFinalizer : (m.addFinalizer finalizer).version = m.version := by
  unfold addFinalizer
  split <;> rfl

@[simp] theorem owner_addFinalizer : (m.addFinalizer finalizer).owner = m.owner := by
  unfold addFinalizer
  split <;> rfl

theorem mem_addFinalizer {f : String} (h : f ∈ (m.addFinalizer finalizer).finalizers) :
    f ∈ m.finalizers ∨ f = finalizer := by
  unfold addFinalizer at h
  split at h
  · exact .inl h
  · rcases List.mem_append.1 h with h | h
    · exact .inl h
    · exact .inr (List.mem_singleton.1 h)

theorem hasFinalizer_addFinalizer : (m.addFinalizer finalizer).hasFinalizer finalizer := by
  unfold addFinalizer
  split
  · next h => exact h
  · simp [hasFinalizer]

theorem ne_nil_of_hasFinalizer (h : m.hasFinalizer finalizer) : m.finalizers ≠ [] := by
  intro heq
  simp [hasFinalizer, heq] at h

end Metadata

namespace Lifecycle

variable {u changed same moved : WorkUnit} {now : Instant} {execution : Key}
  {observation : Observation} {started : Option Instant}

/-- What every change keeps. -/
structure Retains (u changed : WorkUnit) : Prop where
  key : changed.metadata.key = u.metadata.key
  version : changed.metadata.version = u.metadata.version
  owner : changed.metadata.owner = u.metadata.owner
  isLive : changed.isLive → u.isLive
  finalizers : ∀ f ∈ changed.metadata.finalizers,
    f ∈ u.metadata.finalizers ∨ f = WorkUnit.finalizer

theorem keepsPlace_of_retains {β : Type} {change : WorkUnit → WorkUnit × Option β}
    (h : ∀ {u changed note}, change u = (changed, some note) → Retains u changed) :
    Pass.KeepsPlace change := by
  intro u changed note hchange
  exact ⟨(h hchange).key, (h hchange).version⟩

/-! ## Guarding -/

theorem eq_of_guard (h : guard u = (changed, some ())) :
    changed = { u with metadata := u.metadata.addFinalizer WorkUnit.finalizer } := by
  unfold guard at h
  split at h
  · cases h
  · cases h; rfl

theorem retains_guard (h : guard u = (changed, some ())) : Retains u changed := by
  cases eq_of_guard h
  exact ⟨Metadata.key_addFinalizer, Metadata.version_addFinalizer, Metadata.owner_addFinalizer, id,
    fun _ hf => Metadata.mem_addFinalizer hf⟩

theorem guard_keepsPlace : Pass.KeepsPlace guard := keepsPlace_of_retains retains_guard

/-- A work unit that is not guarded has the finalizer already. -/
theorem eq_of_guard_none (h : guard u = (same, none)) :
    same = u ∧ u.metadata.hasFinalizer WorkUnit.finalizer := by
  unfold guard at h
  split at h
  · next hfin =>
    cases h
    exact ⟨rfl, hfin⟩
  · cases h

/-! ## Releasing -/

theorem eq_of_release (h : release u = (changed, some ())) :
    changed = { u with metadata := u.metadata.removeFinalizer WorkUnit.finalizer } := by
  unfold release at h
  split at h
  · cases h; rfl
  · cases h

theorem retains_release (h : release u = (changed, some ())) : Retains u changed := by
  cases eq_of_release h
  exact ⟨rfl, rfl, rfl, id, fun _ hf => .inl (List.mem_of_mem_filter hf)⟩

theorem release_keepsPlace : Pass.KeepsPlace release := keepsPlace_of_retains retains_release

/-! ## Recording the execution -/

theorem retains_recordExecution (h : recordExecution now execution u = (changed, some ())) :
    Retains u changed := by
  have hrecords := WorkUnit.records_of_recordExecution h
  obtain ⟨condition, -, hstatus⟩ := hrecords.status
  refine ⟨congrArg Metadata.key hrecords.metadata, congrArg Metadata.version hrecords.metadata,
    congrArg Metadata.owner hrecords.metadata, fun hlive => ?_,
    fun _ hf => .inl (hrecords.metadata ▸ hf)⟩
  unfold WorkUnit.isLive at hlive ⊢
  rw [hstatus] at hlive
  exact hlive

theorem recordExecution_keepsPlace (now : Instant) (execution : Key) :
    Pass.KeepsPlace (recordExecution now execution) :=
  keepsPlace_of_retains retains_recordExecution

/-- An execution that is not recorded has been recorded before. -/
theorem isSome_of_recordExecution_none (h : recordExecution now execution u = (same, none)) :
    u.status.execution.isSome := by
  unfold recordExecution at h
  split at h
  · next hsome => exact hsome
  · cases h

/-! ## Following an observation -/

theorem advance?_of_follow {old : WorkUnit.Phase}
    (h : follow now observation started u = (moved, some old)) :
    u.advance? observation started now = some moved := by
  unfold follow at h
  split at h
  · next hmoved =>
    cases h
    exact hmoved
  · cases h

theorem retains_advance? (h : u.advance? observation started now = some moved) :
    Retains u moved := by
  have hadvance := WorkUnit.advance_of_advance? h
  exact ⟨congrArg Metadata.key hadvance.metadata, congrArg Metadata.version hadvance.metadata,
    congrArg Metadata.owner hadvance.metadata, fun _ => hadvance.isLive,
    fun _ hf => .inl (hadvance.metadata ▸ hf)⟩

theorem follow_keepsPlace (now : Instant) (observation : Observation) (started : Option Instant) :
    Pass.KeepsPlace (follow now observation started) :=
  keepsPlace_of_retains fun h => retains_advance? (advance?_of_follow h)

theorem eq_of_follow_none (h : follow now observation started u = (same, none)) : same = u := by
  unfold follow at h
  split at h
  · cases h
  · cases h; rfl

end Lifecycle
end CampaignControl
