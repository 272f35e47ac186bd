import CampaignControl.Proofs.Store.Edit

/-!
# Sound stores

What holds of every store that has been built from an empty one by requests (`Store.Sound`), and
how a store is related to an earlier state of itself (`Store.Follows`). The point of the latter is
that neither versions nor identities are used twice: an object with a version that was there
before is the object that was there before.
-/

namespace CampaignControl
namespace Store

variable {s s' s'' : Store} {slot : Slot}

/-- The shape of a store that has been built from an empty one. -/
structure Sound (s : Store) : Prop where
  ascending : Keyed.Ascending s.objects
  key_eq : ∀ {slot object}, s.find? slot = some object → object.key = slot.key
  version_le : ∀ {slot object}, s.find? slot = some object →
    object.metadata.version ≤ s.revision
  issued : ∀ {slot object}, s.find? slot = some object →
    ∃ n ≤ s.created, object.metadata.uid = some (.issued n)
  uid_inj : ∀ {slot slot' object object'}, s.find? slot = some object →
    s.find? slot' = some object' → object.metadata.uid = object'.metadata.uid → slot = slot'

/-- One store is a later state of another one. -/
structure Follows (s s' : Store) : Prop where
  revision_le : s.revision ≤ s'.revision
  created_le : s.created ≤ s'.created
  /-- What is stored has been there already, or has got a new version. -/
  version : ∀ {slot object}, s'.find? slot = some object →
    s.find? slot = some object ∨ s.revision < object.metadata.version
  /-- What is stored has the identity of what has been in its place, or a new one. -/
  identity : ∀ {slot object}, s'.find? slot = some object →
    (∃ old, s.find? slot = some old ∧ old.metadata.uid = object.metadata.uid) ∨
      ∃ n, s.created < n ∧ object.metadata.uid = some (.issued n)

/-! ## Later states -/

namespace Follows

theorem refl (s : Store) : s.Follows s where
  revision_le := Nat.le_refl _
  created_le := Nat.le_refl _
  version h := .inl h
  identity h := .inl ⟨_, h, rfl⟩

theorem trans (h : s.Follows s') (h' : s'.Follows s'') : s.Follows s'' where
  revision_le := Nat.le_trans h.revision_le h'.revision_le
  created_le := Nat.le_trans h.created_le h'.created_le
  version found := by
    rcases h'.version found with found | hlt
    · exact h.version found
    · exact .inr (Nat.lt_of_le_of_lt h.revision_le hlt)
  identity found := by
    rcases h'.identity found with ⟨old, found, heq⟩ | ⟨n, hlt, heq⟩
    · rcases h.identity found with ⟨older, found, heq'⟩ | ⟨n, hlt, heq'⟩
      · exact .inl ⟨older, found, heq'.trans heq⟩
      · exact .inr ⟨n, hlt, heq ▸ heq'⟩
    · exact .inr ⟨n, Nat.lt_of_le_of_lt h.created_le hlt, heq⟩

/-- An object with a version that was stored before is the one that was stored before. -/
theorem eq_of_version_eq (h : s.Follows s') (hs : s.Sound) {old object : Object}
    (hold : s.find? slot = some old) (found : s'.find? slot = some object)
    (hv : object.metadata.version = old.metadata.version) : object = old := by
  rcases h.version found with found | hlt
  · exact Option.some.inj (found.symm.trans hold)
  · have := hs.version_le hold
    omega

/-- An object with an identity that was stored before is in the slot where it was. -/
theorem find?_of_uid_eq (h : s.Follows s') (hs : s.Sound) {other : Slot} {old object : Object}
    (hold : s.find? other = some old) (found : s'.find? slot = some object)
    (heq : object.metadata.uid = old.metadata.uid) : slot = other := by
  rcases h.identity found with ⟨before, hbefore, huid⟩ | ⟨n, hlt, huid⟩
  · exact hs.uid_inj hbefore hold (huid.trans heq)
  · obtain ⟨m, hle, huid'⟩ := hs.issued hold
    have : Uid.issued n = Uid.issued m := Option.some.inj (huid.symm.trans (heq.trans huid'))
    have := Uid.issued_inj.1 this
    omega

/-- What has kept its identity has been there all the time. -/
theorem exists_between (h : s.Follows s') (h' : s'.Follows s'') (hs : s.Sound)
    {old object : Object} (hold : s.find? slot = some old) (found : s''.find? slot = some object)
    (heq : old.metadata.uid = object.metadata.uid) :
    ∃ between, s'.find? slot = some between ∧ between.metadata.uid = object.metadata.uid := by
  rcases h'.identity found with hbetween | ⟨n, hlt, huid⟩
  · exact hbetween
  · obtain ⟨m, hle, huid'⟩ := hs.issued hold
    have : Uid.issued n = Uid.issued m := Option.some.inj (huid.symm.trans (heq.symm.trans huid'))
    have := Uid.issued_inj.1 this
    have := h.created_le
    omega

end Follows

theorem Deletion.follows (h : s.Deletion s') : s.Follows s' := by
  have htouch : ∀ (other : Slot) (f : Metadata → Metadata), (∀ m, (f m).uid = m.uid) →
      s.Follows (s.advance.touch other f) := by
    intro other f hf
    refine ⟨Nat.le_succ _, Nat.le_refl _, fun {slot o'} h => ?_, fun {slot o'} h => ?_⟩
    · rw [find?_touch, find?_advance] at h
      split at h
      · obtain ⟨o, -, rfl⟩ := Option.map_eq_some_iff.1 h
        exact .inr (Nat.lt_succ_self _)
      · exact .inl h
    · rw [find?_touch, find?_advance] at h
      split at h
      · obtain ⟨o, found, rfl⟩ := Option.map_eq_some_iff.1 h
        exact .inl ⟨o, found, (hf o.metadata).symm⟩
      · exact .inl ⟨o', h, rfl⟩
  cases h with
  | advance => exact ⟨Nat.le_succ _, Nat.le_refl _, .inl, fun h => .inl ⟨_, h, rfl⟩⟩
  | @drop other object found hfin =>
    have hfind : ∀ {slot o'}, (s.drop other).find? slot = some o' → s.find? slot = some o' := by
      intro slot o' h
      rw [find?_drop] at h
      split at h
      · cases h
      · exact h
    exact ⟨Nat.le_refl _, Nat.le_refl _, fun h => .inl (hfind h), fun h => .inl ⟨_, hfind h, rfl⟩⟩
  | mark now => exact htouch _ _ fun _ => rfl
  | disown other => exact htouch _ _ fun _ => rfl

theorem Edit.follows (h : s.Edit s') : s.Follows s' := by
  cases h with
  | create now object =>
    refine ⟨Nat.le_succ _, Nat.le_succ _, fun {slot o'} h => ?_, fun {slot o'} h => ?_⟩
    · rw [find?_withNew] at h
      split at h
      · cases h; exact .inr (Nat.lt_succ_self _)
      · exact .inl h
    · rw [find?_withNew] at h
      split at h
      · cases h; exact .inr ⟨_, Nat.lt_succ_self _, rfl⟩
      · exact .inl ⟨o', h, rfl⟩
  | @revise other old object hold =>
    refine ⟨Nat.le_succ _, Nat.le_refl _, fun {slot o'} h => ?_, fun {slot o'} h => ?_⟩
    · rw [find?_withRevised] at h
      split at h
      · cases h; exact .inr (Nat.lt_succ_self _)
      · exact .inl h
    · rw [find?_withRevised] at h
      split at h
      · next heq => subst heq; cases h; exact .inl ⟨old, hold, rfl⟩
      · exact .inl ⟨o', h, rfl⟩
  | deletion h => exact h.follows

theorem Edits.follows (h : s.Edits s') : s.Follows s' := by
  induction h with
  | refl => exact .refl s
  | tail _ hstep ih => exact ih.trans hstep.follows

/-- The store after a request is a later state of the store before it. -/
theorem serve_follows (now : Instant) (r : StoreRequest) (s : Store) :
    s.Follows (s.serve now r).2 := (serve_edits now r s).follows

/-! ## Soundness -/

namespace Sound

theorem empty : Sound {} where
  ascending := .nil
  key_eq h := by cases h
  version_le h := by cases h
  issued h := by cases h
  uid_inj h := by cases h

/-- Whatever keeps the key and the identity of an object in its slot, and does not give it a
version beyond the last, keeps a store sound. -/
theorem of_find? (hs : s.Sound) (hasc : Keyed.Ascending s'.objects)
    (hfollows : s.Follows s')
    (h : ∀ {slot object}, s'.find? slot = some object → object.metadata.version ≤ s'.revision ∧
      ∃ old, s.find? slot = some old ∧ object.key = old.key ∧
        object.metadata.uid = old.metadata.uid) : s'.Sound where
  ascending := hasc
  key_eq found := by
    obtain ⟨-, old, hold, hkey, -⟩ := h found
    exact hkey.trans (hs.key_eq hold)
  version_le found := (h found).1
  issued found := by
    obtain ⟨-, old, hold, -, huid⟩ := h found
    obtain ⟨n, hle, heq⟩ := hs.issued hold
    exact ⟨n, Nat.le_trans hle hfollows.created_le, huid.trans heq⟩
  uid_inj found found' heq := by
    obtain ⟨-, old, hold, -, huid⟩ := h found
    obtain ⟨-, old', hold', -, huid'⟩ := h found'
    exact hs.uid_inj hold hold' (huid.symm.trans (heq.trans huid'))

theorem deletion (hs : s.Sound) (h : s.Deletion s') : s'.Sound := by
  have hfollows := h.follows
  have htouch : ∀ (other : Slot) (f : Metadata → Metadata),
      (∀ m, (f m).uid = m.uid ∧ (f m).key = m.key) →
      s.Follows (s.advance.touch other f) → (s.advance.touch other f).Sound := by
    intro other f hf hfollows
    refine hs.of_find? (hs.ascending.adjust ..) hfollows fun {slot o'} h => ?_
    rw [find?_touch, find?_advance] at h
    split at h
    · obtain ⟨o, found, rfl⟩ := Option.map_eq_some_iff.1 h
      exact ⟨Nat.le_refl _, o, found, (hf o.metadata).2, (hf o.metadata).1⟩
    · exact ⟨Nat.le_succ_of_le (hs.version_le h), o', h, rfl, rfl⟩
  cases h with
  | advance =>
    exact hs.of_find? hs.ascending hfollows
      fun h => ⟨Nat.le_succ_of_le (hs.version_le h), _, h, rfl, rfl⟩
  | @drop other object found hfin =>
    refine hs.of_find? (hs.ascending.erase _) hfollows fun {slot o'} h => ?_
    rw [find?_drop] at h
    split at h
    · cases h
    · exact ⟨hs.version_le h, o', h, rfl, rfl⟩
  | mark now => exact htouch _ _ (fun _ => ⟨rfl, rfl⟩) hfollows
  | disown other => exact htouch _ _ (fun _ => ⟨rfl, rfl⟩) hfollows

theorem withNew (hs : s.Sound) (now : Instant) {object : Object}
    (hkey : object.key = slot.key) : (s.withNew now slot object).Sound where
  ascending := hs.ascending.insert ..
  key_eq h := by
    rw [find?_withNew] at h
    split at h
    · next heq => subst heq; cases h; exact hkey
    · exact hs.key_eq h
  version_le h := by
    rw [find?_withNew] at h
    split at h
    · cases h; exact Nat.le_refl _
    · exact Nat.le_succ_of_le (hs.version_le h)
  issued h := by
    rw [find?_withNew] at h
    split at h
    · cases h; exact ⟨_, Nat.le_refl _, rfl⟩
    · obtain ⟨n, hle, heq⟩ := hs.issued h
      exact ⟨n, Nat.le_succ_of_le hle, heq⟩
  uid_inj {slot₁ slot₂ o₁ o₂} h₁ h₂ heq := by
    -- the identity of the new object is beyond all that have been issued
    have hnew : ∀ {other o}, s.find? other = some o →
        o.metadata.uid ≠ some (.issued (s.created + 1)) := by
      intro other o h heq
      obtain ⟨n, hle, huid⟩ := hs.issued h
      have := Uid.issued_inj.1 (Option.some.inj (huid.symm.trans heq))
      omega
    rw [find?_withNew] at h₁ h₂
    split at h₁ <;> split at h₂
    · next h h' => exact h.symm.trans h'
    · cases h₁; exact absurd heq.symm (hnew h₂)
    · cases h₂; exact absurd heq (hnew h₁)
    · exact hs.uid_inj h₁ h₂ heq

theorem withRevised (hs : s.Sound) {old object : Object} (hold : s.find? slot = some old)
    (hkey : object.key = slot.key) : (s.withRevised slot old object).Sound := by
  refine hs.of_find? (hs.ascending.insert ..) (Edit.revise object hold hkey).follows
    fun {other o'} h => ?_
  rw [find?_withRevised] at h
  split at h
  · next heq =>
    subst heq
    cases h
    exact ⟨Nat.le_refl _, old, hold, hkey.trans (hs.key_eq hold).symm, rfl⟩
  · exact ⟨Nat.le_succ_of_le (hs.version_le h), o', h, rfl, rfl⟩

theorem edit (hs : s.Sound) (h : s.Edit s') : s'.Sound := by
  cases h with
  | create now object hnone hkey => exact hs.withNew now hkey
  | revise object hold hkey => exact hs.withRevised hold hkey
  | deletion h => exact hs.deletion h

theorem edits (hs : s.Sound) (h : s.Edits s') : s'.Sound := by
  induction h with
  | refl => exact hs
  | tail _ hstep ih => exact ih.edit hstep

/-- A store stays sound, whatever is requested of it. -/
theorem serve (hs : s.Sound) (now : Instant) (r : StoreRequest) : (s.serve now r).2.Sound :=
  hs.edits (serve_edits now r s)

end Sound
end Store
end CampaignControl
