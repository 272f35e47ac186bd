import CampaignControl.Proofs.Concurrency.History
import CampaignControl.Proofs.Lifecycle.Outline

/-!
# Phases in a store

Which phase the work unit with an identity is in (`Store.phaseOf?`), and how a request has changed
it (`Store.moved?`). Between two states of a store either no work unit that stays has changed its
phase (`Store.KeepsPhases`), or exactly one has (`Store.Moves`).
-/

namespace CampaignControl

open Lifecycle (unitSlot)

/-! ## The phase of an object -/

/-- The phase of a work unit, if the object is one. -/
def Object.phase? (o : Object) : Option WorkUnit.Phase :=
  match (Resource.decode o : Except StoreError WorkUnit) with
  | .ok u => some u.status.phase
  | .error _ => none

namespace Object

variable {o o' : Object}

theorem phase?_of_body_eq (h : o'.body = o.body) : o'.phase? = o.phase? := by
  unfold phase?
  rw [Resource.decode_eq_map h]
  cases (Resource.decode o : Except StoreError WorkUnit) <;> rfl

theorem phase?_of_decode {u : WorkUnit} (h : Resource.decode o = .ok u) :
    o.phase? = some u.status.phase := by
  unfold phase?
  rw [h]

theorem phase?_encode (u : WorkUnit) : (Resource.encode u).phase? = some u.status.phase :=
  phase?_of_decode (Resource.decode_encode u)

end Object

namespace Store

variable {s s' s'' : Store} {uid uid' : Uid} {key k : Key} {o o' : Object}
  {a b : WorkUnit.Phase}

/-! ## The phase of an incarnation -/

/-- The phase of the work unit with an identity, if it is stored. -/
def phaseOf? (s : Store) (uid : Uid) : Option WorkUnit.Phase :=
  s.objects.findSome? fun (slot, o) =>
    if slot.kind = .workUnit ∧ o.metadata.uid = some uid then o.phase? else none

theorem exists_of_phaseOf? (hs : s.Sound) (h : s.phaseOf? uid = some a) :
    ∃ k o, s.find? (unitSlot k) = some o ∧ o.metadata.uid = some uid ∧ o.phase? = some a := by
  obtain ⟨⟨⟨kind, k⟩, o⟩, hmem, heq⟩ := List.exists_of_findSome?_eq_some h
  dsimp only at heq
  split at heq
  · next hunit =>
    obtain ⟨rfl, huid⟩ := hunit
    exact ⟨k, o, hs.ascending.mem_iff.1 hmem, huid, heq⟩
  · cases heq

theorem phaseOf?_of_find? (hs : s.Sound) (found : s.find? (unitSlot k) = some o)
    (huid : o.metadata.uid = some uid) : s.phaseOf? uid = o.phase? := by
  cases hphase : s.phaseOf? uid with
  | none =>
    have hnone := List.findSome?_eq_none_iff.1 hphase _ (hs.ascending.mem_iff.2 found)
    exact (hnone.symm.trans (if_pos ⟨rfl, huid⟩))
  | some a =>
    obtain ⟨k', o', found', huid', heq⟩ := exists_of_phaseOf? hs hphase
    cases hs.uid_inj found found' (huid.trans huid'.symm)
    cases found.symm.trans found'
    exact heq.symm

/-! ## Changes of phases -/

/-- Every work unit that stays is in the phase that it was in. -/
def KeepsPhases (s s' : Store) : Prop :=
  ∀ k o o', s.find? (unitSlot k) = some o → s'.find? (unitSlot k) = some o' →
    o'.metadata.uid = o.metadata.uid → o'.phase? = o.phase?

/-- How the work unit with an identity has changed its phase, if it is stored before and after and
has changed it. -/
def moved? (uid : Uid) (s s' : Store) : Option (WorkUnit.Phase × WorkUnit.Phase) :=
  match s.phaseOf? uid, s'.phaseOf? uid with
  | some a, some b => if a = b then none else some (a, b)
  | _, _ => none

/-- The work unit at a key has changed its phase as it may, and no other one has. -/
structure Moves (key : Key) (uid : Uid) (a b : WorkUnit.Phase) (s s' : Store) : Prop where
  before : ∃ o, s.find? (unitSlot key) = some o ∧ o.metadata.uid = some uid ∧ o.phase? = some a
  after : ∃ o, s'.find? (unitSlot key) = some o ∧ o.metadata.uid = some uid ∧ o.phase? = some b
  ne : a ≠ b
  canMove : a.canMoveTo b
  others : ∀ k o o', k ≠ key → s.find? (unitSlot k) = some o → s'.find? (unitSlot k) = some o' →
    o'.metadata.uid = o.metadata.uid → o'.phase? = o.phase?

theorem moved?_self (uid : Uid) (s : Store) : moved? uid s s = none := by
  unfold moved?
  cases s.phaseOf? uid with
  | none => rfl
  | some a => exact if_pos rfl

/-- What has changed its phase is in its slot before and after. -/
theorem exists_of_moved? (hs : s.Sound) (hs' : s'.Sound) (hfollows : s.Follows s')
    (h : moved? uid s s' = some (a, b)) :
    ∃ k o o', s.find? (unitSlot k) = some o ∧ o.metadata.uid = some uid ∧ o.phase? = some a ∧
      s'.find? (unitSlot k) = some o' ∧ o'.metadata.uid = some uid ∧ o'.phase? = some b ∧
      a ≠ b := by
  unfold moved? at h
  split at h
  · next a' b' ha hb =>
    split at h
    · cases h
    · next hne =>
      cases h
      obtain ⟨k, o, found, huid, hphase⟩ := exists_of_phaseOf? hs ha
      obtain ⟨k', o', found', huid', hphase'⟩ := exists_of_phaseOf? hs' hb
      cases hfollows.find?_of_uid_eq hs found found' (huid'.trans huid.symm)
      exact ⟨k, o, o', found, huid, hphase, found', huid', hphase', hne⟩
  · cases h

theorem KeepsPhases.refl (s : Store) : KeepsPhases s s := by
  intro k o o' found found' _
  cases found.symm.trans found'
  rfl

theorem KeepsPhases.moved? (h : KeepsPhases s s') (hs : s.Sound) (hs' : s'.Sound)
    (hfollows : s.Follows s') (uid : Uid) : moved? uid s s' = none := by
  cases hmoved : Store.moved? uid s s' with
  | none => rfl
  | some c =>
    obtain ⟨k, o, o', found, huid, ha, found', huid', hb, hne⟩ :=
      exists_of_moved? hs hs' hfollows hmoved
    have heq := h k o o' found found' (huid'.trans huid.symm)
    rw [ha, hb] at heq
    exact absurd (Option.some.inj heq).symm hne

namespace Moves

variable (h : Moves key uid a b s s') (hs : s.Sound) (hs' : s'.Sound)
include h hs hs'

theorem moved?_eq : moved? uid s s' = some (a, b) := by
  obtain ⟨o, found, huid, ha⟩ := h.before
  obtain ⟨o', found', huid', hb⟩ := h.after
  have hbefore := (phaseOf?_of_find? hs found huid).trans ha
  have hafter := (phaseOf?_of_find? hs' found' huid').trans hb
  simp only [moved?, hbefore, hafter, if_neg h.ne]

theorem moved?_of_ne (hfollows : s.Follows s') (hne : uid' ≠ uid) : moved? uid' s s' = none := by
  cases hmoved : moved? uid' s s' with
  | none => rfl
  | some c =>
    obtain ⟨k, o, o', found, huid, ha, found', huid', hb, hab⟩ :=
      exists_of_moved? hs hs' hfollows hmoved
    have hkey : k ≠ key := by
      rintro rfl
      obtain ⟨o₀, found₀, huid₀, -⟩ := h.before
      cases found.symm.trans found₀
      exact hne (Option.some.inj (huid.symm.trans huid₀))
    have heq := h.others k o o' hkey found found' (huid'.trans huid.symm)
    rw [ha, hb] at heq
    exact absurd (Option.some.inj heq).symm hab

end Moves

/-! ## Requests and phases -/

/-- A request changes no phase, unless it replaces a work unit by one in another phase. -/
theorem Outcome.keepsPhases {r : StoreRequest} (h : s.Outcome r s')
    (hr : ∀ object old, r = .update .workUnit object →
      s.find? (unitSlot object.key) = some old →
      object.metadata.version = old.metadata.version → object.phase? = old.phase?) :
    KeepsPhases s s' := by
  intro k o o' found found' _
  cases h.origin found' with
  | faded hold hfades =>
    cases found.symm.trans hold
    exact Object.phase?_of_body_eq hfades.body
  | created now _ _ hnone => cases found.symm.trans hnone
  | @revised old object heq hkey hv hold =>
    cases found.symm.trans hold
    have hslot : unitSlot object.key = unitSlot k := congrArg unitSlot hkey
    have hbody : (s.revised o object).body = object.body := rfl
    exact (Object.phase?_of_body_eq hbody).trans (hr object o heq (hslot ▸ hold) hv)

/-- A change of a work unit moves it to another phase, if it may. -/
theorem moves_withRevised {object : Object} {u changed : WorkUnit}
    (found : s.find? (unitSlot key) = some object) (huid : object.metadata.uid = some uid)
    (hdecode : Resource.decode object = .ok u)
    (hne : u.status.phase ≠ changed.status.phase)
    (hcan : u.status.phase.canMoveTo changed.status.phase) :
    Moves key uid u.status.phase changed.status.phase s
      (s.withRevised (unitSlot key) object (Resource.encode changed)) where
  before := ⟨object, found, huid, Object.phase?_of_decode hdecode⟩
  after := by
    refine ⟨_, (find?_withRevised ..).trans (if_pos rfl), huid, ?_⟩
    have hbody : (s.revised object (Resource.encode changed)).body =
      (Resource.encode changed).body := rfl
    exact (Object.phase?_of_body_eq hbody).trans (Object.phase?_encode changed)
  ne := hne
  canMove := hcan
  others k o o' hk found₁ found₂ _ := by
    have hslot : unitSlot key ≠ unitSlot k := fun heq => hk (congrArg Slot.key heq).symm
    rw [find?_withRevised, if_neg hslot] at found₂
    cases found₁.symm.trans found₂
    rfl

end Store
end CampaignControl
