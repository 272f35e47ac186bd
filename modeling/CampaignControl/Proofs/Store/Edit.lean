import CampaignControl.Proofs.Keyed
import CampaignControl.Store.Request
import Mathlib.Logic.Relation

/-!
# Edits of a store

What a request does to a store is a sequence of edits: a new object is put in an empty slot, the
object of a slot is replaced, or a step of a deletion is made (`Store.serve_edits`). What every
edit keeps is therefore kept by every request, however far a deletion cascades.

The steps of a deletion (`Store.Deletion`) are told apart from the other edits, because they are
what a store does on its own. Beside what they remove, they change nothing but the version, the
mark of deletion and the owner of an object (`Object.Fades`).
-/

namespace CampaignControl

/-- What may become of an object by steps of deletions as long as it is stored. -/
structure Object.Fades (o o' : Object) : Prop where
  body : o'.body = o.body
  key : o'.metadata.key = o.metadata.key
  uid : o'.metadata.uid = o.metadata.uid
  finalizers : o'.metadata.finalizers = o.metadata.finalizers
  owner : o'.metadata.owner = o.metadata.owner ∨ o'.metadata.owner = none

namespace Object.Fades

theorem refl (o : Object) : o.Fades o := ⟨rfl, rfl, rfl, rfl, .inl rfl⟩

theorem trans {a b c : Object} (hab : a.Fades b) (hbc : b.Fades c) : a.Fades c where
  body := hbc.body.trans hab.body
  key := hbc.key.trans hab.key
  uid := hbc.uid.trans hab.uid
  finalizers := hbc.finalizers.trans hab.finalizers
  owner := by
    rcases hbc.owner with h | h
    · rw [h]; exact hab.owner
    · exact .inr h

theorem hasFinalizer {a b : Object} (h : a.Fades b) (finalizer : String) :
    b.metadata.hasFinalizer finalizer = a.metadata.hasFinalizer finalizer := by
  unfold Metadata.hasFinalizer
  rw [h.finalizers]

end Object.Fades

namespace Store

variable {s s' : Store} {slot : Slot} {old object : Object} {now : Instant}

/-! ## What is found after an edit -/

@[simp] theorem find?_advance (other : Slot) : s.advance.find? other = s.find? other := rfl

theorem find?_put (slot other : Slot) (object : Object) :
    (s.put slot object).find? other = if slot = other then some object else s.find? other :=
  Keyed.find?_insert ..

@[simp] theorem find?_put_self : (s.put slot object).find? slot = some object := by
  rw [find?_put, if_pos rfl]

theorem find?_drop (slot other : Slot) :
    (s.drop slot).find? other = if slot = other then none else s.find? other :=
  Keyed.find?_erase ..

theorem find?_touch (slot other : Slot) (f : Metadata → Metadata) :
    (s.touch slot f).find? other =
      if slot = other then
        (s.find? other).map fun o =>
          { o with metadata := { f o.metadata with version := s.revision } }
      else s.find? other :=
  Keyed.find?_adjust ..

/-! ## New and replaced objects -/

/-- An object as it is stored when it is created. -/
def newborn (s : Store) (now : Instant) (object : Object) : Object :=
  { object with
    metadata :=
      { object.metadata with
        uid := some (.issued (s.created + 1))
        version := s.revision + 1
        createdAt := some now
        deletedAt := none } }

/-- The store with a new object in a slot. -/
def withNew (s : Store) (now : Instant) (slot : Slot) (object : Object) : Store :=
  { s.advance.put slot (s.newborn now object) with created := s.created + 1 }

/-- An object as it is stored when it takes the place of an old one. -/
def revised (s : Store) (old object : Object) : Object :=
  { object with
    metadata :=
      { object.metadata with
        uid := old.metadata.uid
        version := s.revision + 1
        createdAt := old.metadata.createdAt
        deletedAt := old.metadata.deletedAt } }

/-- The store with an object in place of the old one in a slot. -/
def withRevised (s : Store) (slot : Slot) (old object : Object) : Store :=
  s.advance.put slot (s.revised old object)

theorem find?_withNew (slot other : Slot) (object : Object) :
    (s.withNew now slot object).find? other =
      if slot = other then some (s.newborn now object) else s.find? other :=
  find?_put (s := s.advance) ..

theorem find?_withRevised (slot other : Slot) (old object : Object) :
    (s.withRevised slot old object).find? other =
      if slot = other then some (s.revised old object) else s.find? other :=
  find?_put (s := s.advance) ..

/-- A new object leaves the others where they are. -/
theorem find?_withNew_of_some {slot other : Slot} {o : Object} (hnone : s.find? slot = none)
    (object : Object) (found : s.find? other = some o) :
    (s.withNew now slot object).find? other = some o := by
  rw [find?_withNew, if_neg, found]
  rintro rfl
  cases hnone.symm.trans found

/-- When an object is replaced, everything is where it was. -/
theorem exists_withRevised {slot other : Slot} {old o : Object} (hold : s.find? slot = some old)
    (object : Object) (found : s.find? other = some o) :
    ∃ o', (s.withRevised slot old object).find? other = some o' ∧
      o'.metadata.uid = o.metadata.uid := by
  by_cases heq : slot = other
  · subst heq
    cases hold.symm.trans found
    exact ⟨_, (find?_withRevised ..).trans (if_pos rfl), rfl⟩
  · exact ⟨o, (find?_withRevised ..).trans ((if_neg heq).trans found), rfl⟩

/-! ## Deletions -/

/-- A step of a deletion. -/
inductive Deletion (s : Store) : Store → Prop where
  | advance : Deletion s s.advance
  | drop {slot : Slot} {object : Object} : s.find? slot = some object →
    object.metadata.finalizers = [] → Deletion s (s.drop slot)
  | mark {slot : Slot} {object : Object} (now : Instant) : s.find? slot = some object →
    object.metadata.finalizers ≠ [] → object.metadata.isDeleting = false →
    Deletion s (s.advance.touch slot fun m => { m with deletedAt := some now })
  | disown (slot : Slot) : Deletion s (s.advance.touch slot fun m => { m with owner := none })

/-- Any number of steps of deletions. -/
abbrev Deletions : Store → Store → Prop := Relation.ReflTransGen Deletion

theorem withdraw_deletions (now : Instant) (slots : List Slot) (s : Store) :
    s.Deletions (s.withdraw now slots) := by
  fun_induction withdraw now slots s with
  | case1 s => exact .refl
  | case2 slot rest s found ih => exact .head .advance ih
  | case3 slot rest s object found hfin left ih =>
    exact .head .advance (.head (.drop (s := s.advance) found hfin) ih)
  | case4 slot rest s object found hfin hdel ih => exact .head .advance ih
  | case5 slot rest s object found hfin hdel ih =>
    exact .head (.mark now found hfin (Bool.not_eq_true _ ▸ hdel)) ih

theorem disown_deletions (slots : List Slot) (s : Store) : s.Deletions (s.disown slots) := by
  induction slots generalizing s with
  | nil => exact .refl
  | cons slot rest ih => exact .head (.disown slot) (ih _)

theorem drop_deletions_remove (now : Instant) (propagation : Propagation)
    (found : s.find? slot = some object) :
    (s.drop slot).Deletions (s.remove now propagation slot) := by
  unfold remove
  rw [found]
  cases propagation with
  | orphan => exact disown_deletions ..
  | background | foreground => exact withdraw_deletions ..

theorem remove_deletions (now : Instant) (propagation : Propagation)
    (found : s.find? slot = some object) (hfin : object.metadata.finalizers = []) :
    s.Deletions (s.remove now propagation slot) :=
  .head (.drop found hfin) (drop_deletions_remove now propagation found)

theorem delete_deletions (now : Instant) (kind : Kind) (key : Key) (propagation : Propagation)
    (s : Store) : s.Deletions (s.delete now kind key propagation).2 := by
  have hadvance : s.Deletions s.advance := .single .advance
  unfold delete
  dsimp only
  split
  · exact hadvance
  · next object found =>
    split
    · next hfin => exact hadvance.trans (remove_deletions now propagation found hfin)
    · next hfin =>
      split
      · exact hadvance
      · next hdel => exact .single (.mark now found hfin (Bool.not_eq_true _ ▸ hdel))

/-- A deletion fails only where there is nothing to delete. -/
theorem delete_cases (now : Instant) (kind : Kind) (key : Key) (propagation : Propagation)
    (s : Store) : (s.delete now kind key propagation).1 = .ok () ∨
      (s.delete now kind key propagation).1 = .error (.notFound kind key) := by
  unfold delete
  dsimp only
  split
  · exact .inr rfl
  · split
    · exact .inl rfl
    · split <;> exact .inl rfl

/-- An object that is stored after a step of a deletion was stored before, and an object with
finalizers is still stored. -/
theorem Deletion.fades (h : s.Deletion s') (slot : Slot) :
    (∀ o', s'.find? slot = some o' → ∃ o, s.find? slot = some o ∧ o.Fades o') ∧
    (∀ o, s.find? slot = some o → o.metadata.finalizers ≠ [] →
      ∃ o', s'.find? slot = some o' ∧ o.Fades o') := by
  have htouch : ∀ (other : Slot) (f : Metadata → Metadata),
      (∀ o : Object, o.Fades
        { o with metadata := { f o.metadata with version := s.advance.revision } }) →
      (∀ o', (s.advance.touch other f).find? slot = some o' →
        ∃ o, s.find? slot = some o ∧ o.Fades o') ∧
      (∀ o, s.find? slot = some o → o.metadata.finalizers ≠ [] →
        ∃ o', (s.advance.touch other f).find? slot = some o' ∧ o.Fades o') := by
    intro other f hf
    rw [find?_touch, find?_advance]
    split
    · refine ⟨fun o' h => ?_, fun o h _ => ⟨_, by rw [h]; rfl, hf o⟩⟩
      obtain ⟨o, found, rfl⟩ := Option.map_eq_some_iff.1 h
      exact ⟨o, found, hf o⟩
    · exact ⟨fun o' h => ⟨o', h, .refl o'⟩, fun o h _ => ⟨o, h, .refl o⟩⟩
  cases h with
  | advance => exact ⟨fun o' h => ⟨o', h, .refl o'⟩, fun o h _ => ⟨o, h, .refl o⟩⟩
  | @drop other object found hfin =>
    rw [find?_drop]
    split
    · next heq =>
      subst heq
      refine ⟨fun _ h => absurd h (Option.some_ne_none _).symm, fun o h hne => ?_⟩
      rw [found] at h
      cases h
      exact absurd hfin hne
    · exact ⟨fun o' h => ⟨o', h, .refl o'⟩, fun o h _ => ⟨o, h, .refl o⟩⟩
  | mark now => exact htouch _ _ fun o => ⟨rfl, rfl, rfl, rfl, .inl rfl⟩
  | disown other => exact htouch _ _ fun o => ⟨rfl, rfl, rfl, rfl, .inr rfl⟩

/-- What is stored after deletions was stored before. -/
theorem Deletions.fades_of_find? (h : s.Deletions s') {o' : Object}
    (found : s'.find? slot = some o') : ∃ o, s.find? slot = some o ∧ o.Fades o' := by
  induction h generalizing o' with
  | refl => exact ⟨o', found, .refl o'⟩
  | tail _ hstep ih =>
    obtain ⟨o₁, found₁, hfade₁⟩ := (hstep.fades slot).1 o' found
    obtain ⟨o, found, hfade⟩ := ih found₁
    exact ⟨o, found, hfade.trans hfade₁⟩

theorem Deletions.find?_none (h : s.Deletions s') (hnone : s.find? slot = none) :
    s'.find? slot = none := by
  cases found : s'.find? slot with
  | none => rfl
  | some o' =>
    obtain ⟨o, hold, -⟩ := h.fades_of_find? found
    rw [hnone] at hold
    cases hold

/-- Deletions issue no identities. -/
theorem Deletions.created_eq (h : s.Deletions s') : s'.created = s.created := by
  induction h with
  | refl => rfl
  | tail _ hstep ih =>
    cases hstep with
    | advance | drop | mark | disown => exact ih

/-- What has finalizers is still stored after deletions. -/
theorem Deletions.fades_of_finalizers (h : s.Deletions s') {o : Object}
    (found : s.find? slot = some o) (hfin : o.metadata.finalizers ≠ []) :
    ∃ o', s'.find? slot = some o' ∧ o.Fades o' := by
  induction h with
  | refl => exact ⟨o, found, .refl o⟩
  | tail _ hstep ih =>
    obtain ⟨o₁, found₁, hfade₁⟩ := ih
    obtain ⟨o', found', hfade⟩ := (hstep.fades slot).2 o₁ found₁ (hfade₁.finalizers ▸ hfin)
    exact ⟨o', found', hfade₁.trans hfade⟩

/-- Deletions do not add to the number of objects with a property that does not come with
fading. -/
theorem Deletions.countP_le (h : s.Deletions s') {p : Slot × Object → Bool}
    (hp : ∀ slot o o', o.Fades o' → p (slot, o') → p (slot, o)) :
    s'.objects.countP p ≤ s.objects.countP p := by
  induction h with
  | refl => exact Nat.le_refl _
  | tail _ hstep ih =>
    refine Nat.le_trans ?_ ih
    cases hstep with
    | advance => exact Nat.le_refl _
    | drop => exact Keyed.countP_erase_le ..
    | mark => exact Keyed.countP_adjust_le p fun o => hp _ _ _ ⟨rfl, rfl, rfl, rfl, .inl rfl⟩
    | disown => exact Keyed.countP_adjust_le p fun o => hp _ _ _ ⟨rfl, rfl, rfl, rfl, .inr rfl⟩

/-! ## Requests -/

/-- An edit of a store. -/
inductive Edit (s : Store) : Store → Prop where
  | create {slot : Slot} (now : Instant) (object : Object) : s.find? slot = none →
    object.key = slot.key → Edit s (s.withNew now slot object)
  | revise {slot : Slot} {old : Object} (object : Object) : s.find? slot = some old →
    object.key = slot.key → Edit s (s.withRevised slot old object)
  | deletion {s' : Store} : s.Deletion s' → Edit s s'

/-- Any number of edits. -/
abbrev Edits : Store → Store → Prop := Relation.ReflTransGen Edit

theorem Deletions.edits (h : s.Deletions s') : s.Edits s' := by
  induction h with
  | refl => exact .refl
  | tail _ hstep ih => exact .tail ih (.deletion hstep)

theorem create_of_find?_none (now : Instant) {kind : Kind}
    (h : s.find? { kind, key := object.key } = none) :
    s.create now kind object =
      (.ok (s.newborn now object), s.withNew now { kind, key := object.key } object) := by
  simp only [create, h]
  rfl

theorem create_of_find?_some (now : Instant) {kind : Kind}
    (h : s.find? { kind, key := object.key } = some old) :
    s.create now kind object = (.error (.alreadyExists kind object.key), s) := by
  simp only [create, h]

theorem update_of_find?_none (now : Instant) {kind : Kind}
    (h : s.find? { kind, key := object.key } = none) :
    s.update now kind object = (.error (.notFound kind object.key), s) := by
  simp only [update, h]

theorem update_of_version_ne (now : Instant) {kind : Kind}
    (h : s.find? { kind, key := object.key } = some old)
    (hv : old.metadata.version ≠ object.metadata.version) :
    s.update now kind object =
      (.error (.conflict kind object.key object.metadata.version old.metadata.version), s) := by
  simp only [update, h]
  exact if_pos hv

/-- A change that is based on the stored version is made. Deletions follow if it has taken the
last finalizer from an object that is to be deleted. -/
theorem update_of_version_eq (now : Instant) {kind : Kind}
    (h : s.find? { kind, key := object.key } = some old)
    (hv : old.metadata.version = object.metadata.version) :
    ∃ s', s.update now kind object = (.ok (s.revised old object), s') ∧
      (s.withRevised { kind, key := object.key } old object).Deletions s' ∧
      (object.metadata.finalizers ≠ [] →
        s' = s.withRevised { kind, key := object.key } old object) := by
  simp only [update, h, hv, ne_eq, not_true_eq_false, if_false]
  split
  · next hgone =>
    have hfin : object.metadata.finalizers = [] := by
      simpa using (Bool.and_eq_true_iff.1 hgone).2
    refine ⟨_, rfl, remove_deletions now .background find?_put_self hfin, fun hne => ?_⟩
    exact absurd hfin hne
  · exact ⟨_, rfl, .refl, fun _ => rfl⟩

/-- A change of an object stays without further effect as long as the object is not to be deleted,
or is held by a finalizer. -/
theorem update_of_held (now : Instant) (hold : s.find? slot = some old)
    (hkey : object.key = slot.key) (hv : object.metadata.version = old.metadata.version)
    (hheld : old.metadata.isDeleting → object.metadata.finalizers ≠ []) :
    s.update now slot.kind object =
      (.ok (s.revised old object), s.withRevised slot old object) := by
  have hslot : ({ kind := slot.kind, key := object.key } : Slot) = slot := by rw [hkey]
  have hstays : ((s.revised old object).metadata.isDeleting &&
      (s.revised old object).metadata.finalizers.isEmpty) = false := by
    rw [Bool.and_eq_false_imp]
    intro hdel
    exact List.isEmpty_eq_false_iff.2 (hheld hdel)
  simp only [update, hslot, hold, hv, ne_eq, not_true_eq_false, if_false]
  exact if_neg (Bool.not_eq_true _ ▸ hstays)

/-- An object without finalizers is gone after its deletion. -/
theorem find?_delete (now : Instant) (kind : Kind) (key : Key) (propagation : Propagation)
    (hfin : ∀ object, s.find? { kind, key } = some object → object.metadata.finalizers = []) :
    (s.delete now kind key propagation).2.find? { kind, key } = none := by
  unfold delete
  dsimp only
  split
  · next hnone => exact hnone
  · next object found =>
    rw [if_pos (hfin object found)]
    refine (drop_deletions_remove now propagation found).find?_none ?_
    rw [find?_drop, if_pos rfl]

/-- The store after a creation, whether it has been made or not. -/
theorem create_cases (now : Instant) (kind : Kind) (object : Object) (s : Store) :
    (s.create now kind object).2 = s ∨
      s.find? { kind, key := object.key } = none ∧
        (s.create now kind object).2 = s.withNew now { kind, key := object.key } object := by
  cases h : s.find? { kind, key := object.key } with
  | none => rw [create_of_find?_none now h]; exact .inr ⟨rfl, rfl⟩
  | some old => rw [create_of_find?_some now h]; exact .inl rfl

/-- The store after a change, whether it has been made or not. -/
theorem update_cases (now : Instant) (kind : Kind) (object : Object) (s : Store) :
    (s.update now kind object).2 = s ∨
      ∃ old, s.find? { kind, key := object.key } = some old ∧
        (s.withRevised { kind, key := object.key } old object).Deletions
          (s.update now kind object).2 := by
  cases h : s.find? { kind, key := object.key } with
  | none => rw [update_of_find?_none now h]; exact .inl rfl
  | some old =>
    by_cases hv : old.metadata.version = object.metadata.version
    · obtain ⟨s', heq, hdel, -⟩ := update_of_version_eq now h hv
      rw [heq]
      exact .inr ⟨old, rfl, hdel⟩
    · rw [update_of_version_ne now h hv]
      exact .inl rfl

/-- What a request does to a store is a sequence of edits. -/
theorem serve_edits (now : Instant) (r : StoreRequest) (s : Store) :
    s.Edits (s.serve now r).2 := by
  cases r with
  | get | list => exact .refl
  | create kind object =>
    show s.Edits (s.create now kind object).2
    rcases create_cases now kind object s with h | ⟨hnone, h⟩
    · rw [h]
    · rw [h]
      exact .single (.create now object hnone rfl)
  | update kind object =>
    show s.Edits (s.update now kind object).2
    rcases update_cases now kind object s with h | ⟨old, hold, hdel⟩
    · rw [h]
    · exact .head (.revise object hold rfl) hdel.edits
  | delete kind key propagation => exact (delete_deletions ..).edits

end Store
end CampaignControl
