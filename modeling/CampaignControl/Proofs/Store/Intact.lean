import CampaignControl.Proofs.Store.Sound

/-!
# Intact stores

What holds of a store after any requests to an empty one, beyond its being sound
(`Store.Intact`): every object has the time of its creation, no version is there twice, and
nothing that is to be deleted is without a finalizer to hold it. The last of these is not kept by
every edit, since a change may take the last finalizer from an object that is to be deleted. It is
kept by every request, which then goes on to remove the object.

An object that stays in its slot keeps its identity, the time of its creation and the mark of its
deletion (`Object.Persists`).
-/

namespace CampaignControl

/-- What is kept of an object for as long as it is stored. -/
structure Object.Persists (o o' : Object) : Prop where
  uid : o'.metadata.uid = o.metadata.uid
  createdAt : o'.metadata.createdAt = o.metadata.createdAt
  deletedAt : ∀ time, o.metadata.deletedAt = some time → o'.metadata.deletedAt = some time

namespace Object.Persists

theorem refl (o : Object) : o.Persists o := ⟨rfl, rfl, fun _ h => h⟩

theorem trans {a b c : Object} (hab : a.Persists b) (hbc : b.Persists c) : a.Persists c where
  uid := hbc.uid.trans hab.uid
  createdAt := hbc.createdAt.trans hab.createdAt
  deletedAt time h := hbc.deletedAt time (hab.deletedAt time h)

end Object.Persists

namespace Store

variable {s s' : Store} {slot : Slot} {old object : Object} {now : Instant}

/-- The store after requests, each of which is served at its time. -/
def serveAll (s : Store) : List (Instant × StoreRequest) → Store
  | [] => s
  | (now, r) :: rest => (s.serve now r).2.serveAll rest

/-- A store that requests have built from an empty one. -/
def Reached (s : Store) : Prop := ∃ past, s = ({} : Store).serveAll past

theorem serveAll_append (s : Store) (past rest : List (Instant × StoreRequest)) :
    s.serveAll (past ++ rest) = (s.serveAll past).serveAll rest := by
  induction past generalizing s with
  | nil => rfl
  | cons call past ih => exact ih _

/-! ## What persists -/

theorem Deletion.persists (h : s.Deletion s') {o' : Object} (found : s'.find? slot = some o') :
    ∃ o, s.find? slot = some o ∧ o.Persists o' := by
  cases h with
  | advance => exact ⟨o', found, .refl o'⟩
  | drop =>
    rw [find?_drop] at found
    split at found
    · cases found
    · exact ⟨o', found, .refl o'⟩
  | @mark marked object now hfind hfin hdel =>
    rw [find?_touch, find?_advance] at found
    split at found
    · next heq =>
      subst heq
      rw [hfind] at found
      cases found
      refine ⟨object, hfind, rfl, rfl, fun time h => ?_⟩
      rw [Metadata.isDeleting, h] at hdel
      cases hdel
    · exact ⟨o', found, .refl o'⟩
  | disown =>
    rw [find?_touch, find?_advance] at found
    split at found
    · obtain ⟨o, hfind, rfl⟩ := Option.map_eq_some_iff.1 found
      exact ⟨o, hfind, rfl, rfl, fun _ h => h⟩
    · exact ⟨o', found, .refl o'⟩

theorem Deletions.persists (h : s.Deletions s') {o' : Object} (found : s'.find? slot = some o') :
    ∃ o, s.find? slot = some o ∧ o.Persists o' := by
  induction h generalizing o' with
  | refl => exact ⟨o', found, .refl o'⟩
  | tail _ hstep ih =>
    obtain ⟨o₁, found₁, h₁⟩ := hstep.persists found
    obtain ⟨o, found, h⟩ := ih found₁
    exact ⟨o, found, h.trans h₁⟩

/-- What is in the same slot before and after a request persists. -/
theorem serve_persists {r : StoreRequest} {o o' : Object} (found : s.find? slot = some o)
    (found' : (s.serve now r).2.find? slot = some o') : o.Persists o' := by
  have of_deletions : ∀ {s₁ : Store}, s₁.Deletions (s.serve now r).2 →
      (∀ o₁, s₁.find? slot = some o₁ → o.Persists o₁) → o.Persists o' := by
    intro s₁ hdel hmid
    obtain ⟨o₁, found₁, h⟩ := hdel.persists found'
    exact (hmid o₁ found₁).trans h
  have hsame : ∀ o₁, s.find? slot = some o₁ → o.Persists o₁ := by
    intro o₁ found₁
    rw [found] at found₁
    cases found₁
    exact .refl o
  cases r with
  | get | list => exact hsame o' found'
  | create kind object =>
    rcases create_cases now kind object s with h | ⟨hnone, h⟩
    · exact hsame o' (h ▸ found')
    · replace found' : (s.create now kind object).2.find? slot = some o' := found'
      rw [h, find?_withNew] at found'
      split at found'
      · next heq =>
        rw [heq, found] at hnone
        cases hnone
      · exact hsame o' found'
  | update kind object =>
    rcases update_cases now kind object s with h | ⟨old, hold, hdel⟩
    · exact hsame o' (h ▸ found')
    · refine of_deletions hdel fun o₁ found₁ => ?_
      rw [find?_withRevised] at found₁
      split at found₁
      · next heq =>
        rw [heq, found] at hold
        cases hold
        cases found₁
        exact ⟨rfl, rfl, fun _ h => h⟩
      · exact hsame o₁ found₁
  | delete kind key propagation => exact of_deletions (delete_deletions ..) hsame

/-! ## Versions -/

/-- Every object has been created at some time, and no version is there twice. -/
structure Numbered (s : Store) : Prop extends s.Sound where
  createdAt : ∀ {slot object}, s.find? slot = some object → object.metadata.createdAt.isSome
  version_pos : ∀ {slot object}, s.find? slot = some object → 0 < object.metadata.version
  version_inj : ∀ {slot slot' object object'}, s.find? slot = some object →
    s.find? slot' = some object' → object.metadata.version = object'.metadata.version →
    slot = slot'

namespace Numbered

theorem empty : Numbered {} where
  toSound := .empty
  createdAt h := by cases h
  version_pos h := by cases h
  version_inj h := by cases h

/-- Versions stay distinct where at most one slot gets a new object, with the next version. -/
theorem of_slot (hs : s.Numbered) (hsound : s'.Sound) (slot : Slot)
    (hother : ∀ {other o}, slot ≠ other → s'.find? other = some o → s.find? other = some o)
    (hslot : ∀ {o}, s'.find? slot = some o → s.find? slot = some o ∨
      o.metadata.version = s.revision + 1 ∧ o.metadata.createdAt.isSome) : s'.Numbered := by
  have hcases : ∀ {other o}, s'.find? other = some o → s.find? other = some o ∨
      other = slot ∧ o.metadata.version = s.revision + 1 ∧ o.metadata.createdAt.isSome := by
    intro other o found
    by_cases heq : slot = other
    · subst heq
      exact (hslot found).imp_right fun h => ⟨rfl, h⟩
    · exact .inl (hother heq found)
  refine ⟨hsound, fun found => ?_, fun found => ?_, fun found found' heq => ?_⟩
  · rcases hcases found with found | ⟨-, -, h⟩
    · exact hs.createdAt found
    · exact h
  · rcases hcases found with found | ⟨-, h, -⟩
    · exact hs.version_pos found
    · omega
  · rcases hcases found with found | ⟨rfl, h, -⟩ <;>
      rcases hcases found' with found' | ⟨rfl, h', -⟩
    · exact hs.version_inj found found' heq
    · have := hs.version_le found
      omega
    · have := hs.version_le found'
      omega
    · rfl

theorem edit (hs : s.Numbered) (h : s.Edit s') : s'.Numbered := by
  have hsound := hs.toSound.edit h
  have htouch : ∀ (touched : Slot) (f : Metadata → Metadata),
      (∀ m, (f m).createdAt = m.createdAt) → (s.advance.touch touched f).Sound →
      (s.advance.touch touched f).Numbered := by
    intro touched f hf hsound
    refine hs.of_slot hsound touched (fun hne found => ?_) fun found => .inr ?_
    · rwa [find?_touch, if_neg hne] at found
    · rw [find?_touch, if_pos rfl] at found
      obtain ⟨o, hfind, rfl⟩ := Option.map_eq_some_iff.1 found
      exact ⟨rfl, (hf o.metadata).symm ▸ hs.createdAt hfind⟩
  cases h with
  | @create slot now object hnone hkey =>
    refine hs.of_slot hsound slot (fun hne found => ?_) fun found => .inr ?_
    · rwa [find?_withNew, if_neg hne] at found
    · rw [find?_withNew, if_pos rfl] at found
      cases found
      exact ⟨rfl, rfl⟩
  | @revise slot old object hold hkey =>
    refine hs.of_slot hsound slot (fun hne found => ?_) fun found => .inr ?_
    · rwa [find?_withRevised, if_neg hne] at found
    · rw [find?_withRevised, if_pos rfl] at found
      cases found
      refine ⟨rfl, ?_⟩
      show old.metadata.createdAt.isSome
      exact hs.createdAt hold
  | deletion h =>
    cases h with
    | advance => exact ⟨hsound, hs.createdAt, hs.version_pos, hs.version_inj⟩
    | @drop dropped =>
      refine hs.of_slot hsound dropped (fun hne found => ?_) fun found => ?_
      · rwa [find?_drop, if_neg hne] at found
      · rw [find?_drop, if_pos rfl] at found
        cases found
    | mark now => exact htouch _ _ (fun _ => rfl) hsound
    | disown => exact htouch _ _ (fun _ => rfl) hsound

theorem edits (hs : s.Numbered) (h : s.Edits s') : s'.Numbered := by
  induction h with
  | refl => exact hs
  | tail _ hstep ih => exact ih.edit hstep

end Numbered

/-! ## Marks of deletion -/

/-- What is to be deleted is held by a finalizer. -/
def Held (s : Store) : Prop :=
  ∀ slot object, s.find? slot = some object → object.metadata.isDeleting →
    object.metadata.finalizers ≠ []

namespace Held

theorem deletion (hs : s.Held) (h : s.Deletion s') : s'.Held := by
  intro slot o found hdel
  cases h with
  | advance => exact hs slot o found hdel
  | drop =>
    rw [find?_drop] at found
    split at found
    · cases found
    · exact hs slot o found hdel
  | mark now hfind hfin =>
    rw [find?_touch, find?_advance] at found
    split at found
    · next heq =>
      subst heq
      rw [hfind] at found
      cases found
      exact hfin
    · exact hs slot o found hdel
  | disown =>
    rw [find?_touch, find?_advance] at found
    split at found
    · obtain ⟨old, hfind, rfl⟩ := Option.map_eq_some_iff.1 found
      exact hs slot old hfind hdel
    · exact hs slot o found hdel

theorem deletions (hs : s.Held) (h : s.Deletions s') : s'.Held := by
  induction h with
  | refl => exact hs
  | tail _ hstep ih => exact ih.deletion hstep

/-- A change that leaves an object without a finalizer to hold it removes the object. -/
theorem update (hs : s.Held) (now : Instant) (kind : Kind) (object : Object) :
    (s.update now kind object).2.Held := by
  cases hfind : s.find? { kind, key := object.key } with
  | none => rw [update_of_find?_none now hfind]; exact hs
  | some old =>
    by_cases hv : old.metadata.version = object.metadata.version
    · have hother : ∀ slot o, ({ kind, key := object.key } : Slot) ≠ slot →
          (s.withRevised { kind, key := object.key } old object).find? slot = some o →
          o.metadata.isDeleting → o.metadata.finalizers ≠ [] := by
        intro slot o hne found
        rw [find?_withRevised, if_neg hne] at found
        exact hs slot o found
      simp only [Store.update, hfind, hv, ne_eq, not_true_eq_false, if_false]
      split
      · refine deletions ?_ (drop_deletions_remove now .background find?_put_self)
        intro slot o found
        rw [find?_drop] at found
        split at found
        · cases found
        · next hne => exact hother slot o hne found
      · next hstays =>
        intro slot o found hdel hfin
        by_cases hne : ({ kind, key := object.key } : Slot) = slot
        · replace found : (s.withRevised { kind, key := object.key } old object).find? slot =
            some o := found
          rw [find?_withRevised, if_pos hne] at found
          cases found
          exact hstays (by rw [Bool.and_eq_true]; exact ⟨hdel, List.isEmpty_iff.2 hfin⟩)
        · exact hother slot o hne found hdel hfin
    · rw [update_of_version_ne now hfind hv]; exact hs

theorem serve (hs : s.Held) (now : Instant) (r : StoreRequest) : (s.serve now r).2.Held := by
  cases r with
  | get | list => exact hs
  | create kind object =>
    show (s.create now kind object).2.Held
    rcases create_cases now kind object s with h | ⟨-, h⟩
    · rw [h]; exact hs
    · rw [h]
      intro slot o found hdel
      rw [find?_withNew] at found
      split at found
      · cases found; cases hdel
      · exact hs slot o found hdel
  | update kind object => exact hs.update now kind object
  | delete kind key propagation => exact hs.deletions (delete_deletions ..)

end Held

/-! ## Any requests -/

/-- The shape of a store that requests have built from an empty one. -/
structure Intact (s : Store) : Prop extends s.Numbered where
  held : s.Held

theorem Intact.serve (hs : s.Intact) (now : Instant) (r : StoreRequest) :
    (s.serve now r).2.Intact where
  toNumbered := hs.toNumbered.edits (serve_edits now r s)
  held := hs.held.serve now r

theorem Intact.serveAll (hs : s.Intact) (calls : List (Instant × StoreRequest)) :
    (s.serveAll calls).Intact := by
  induction calls generalizing s with
  | nil => exact hs
  | cons call rest ih => exact ih (hs.serve call.1 call.2)

theorem Reached.intact (h : s.Reached) : s.Intact := by
  obtain ⟨past, rfl⟩ := h
  exact Intact.serveAll { toNumbered := .empty, held := fun _ _ found => by cases found } past

theorem Reached.serve (h : s.Reached) (now : Instant) (r : StoreRequest) :
    (s.serve now r).2.Reached := by
  obtain ⟨past, rfl⟩ := h
  exact ⟨past ++ [(now, r)], (serveAll_append _ past [(now, r)]).symm⟩

/-- A request that fails changes nothing that is stored. -/
theorem find?_serve_of_error {r : StoreRequest} {e : StoreError}
    (h : (s.serve now r).1 = .error e) (slot : Slot) :
    (s.serve now r).2.find? slot = s.find? slot := by
  cases r with
  | get | list => rfl
  | create kind object =>
    cases hfind : s.find? { kind, key := object.key } with
    | none =>
      replace h : (s.create now kind object).1 = .error e := h
      rw [create_of_find?_none now hfind] at h
      cases h
    | some old =>
      show (s.create now kind object).2.find? slot = _
      rw [create_of_find?_some now hfind]
  | update kind object =>
    replace h : (s.update now kind object).1 = .error e := h
    show (s.update now kind object).2.find? slot = _
    cases hfind : s.find? { kind, key := object.key } with
    | none => rw [update_of_find?_none now hfind]
    | some old =>
      by_cases hv : old.metadata.version = object.metadata.version
      · obtain ⟨s', heq, -⟩ := update_of_version_eq now hfind hv
        rw [heq] at h
        cases h
      · rw [update_of_version_ne now hfind hv]
  | delete kind key propagation =>
    replace h : (s.delete now kind key propagation).1 = .error e := h
    show (s.delete now kind key propagation).2.find? slot = _
    unfold delete at h ⊢
    dsimp only at h ⊢
    split at h
    · rfl
    · split at h
      · cases h
      · split at h <;> cases h

/-- What stays in its slot during requests persists. -/
theorem serveAll_persists {calls : List (Instant × StoreRequest)} {o : Object}
    (found : s.find? slot = some o)
    (hstays : ∀ n ≤ calls.length, ((s.serveAll (calls.take n)).find? slot).isSome) :
    ∃ o', (s.serveAll calls).find? slot = some o' ∧ o.Persists o' := by
  induction calls generalizing s o with
  | nil => exact ⟨o, found, .refl o⟩
  | cons call rest ih =>
    obtain ⟨o₁, found₁⟩ := Option.isSome_iff_exists.1 (hstays 1 (by simp))
    obtain ⟨o', found', h⟩ := ih found₁ fun n hn => hstays (n + 1) (by simpa using hn)
    exact ⟨o', found', (serve_persists found found₁).trans h⟩

/-- **The representation of a store.** A store is intact whatever has been requested of it, and
from there on, whatever is requested next: the revision does not fall, a version tells what is in
a slot, an object persists for as long as it is stored, and a failure changes nothing. -/
theorem representation (past : List (Instant × StoreRequest)) :
    let s := ({} : Store).serveAll past
    s.Intact ∧
    (∀ now r, s.revision ≤ (s.serve now r).2.revision) ∧
    (∀ now r slot o o', s.find? slot = some o → (s.serve now r).2.find? slot = some o' →
      o'.metadata.version = o.metadata.version → o' = o) ∧
    (∀ slot o calls, s.find? slot = some o →
      (∀ n ≤ calls.length, ((s.serveAll (calls.take n)).find? slot).isSome) →
      ∃ o', (s.serveAll calls).find? slot = some o' ∧ o.Persists o') ∧
    (∀ now r e, (s.serve now r).1 = .error e →
      ∀ slot, (s.serve now r).2.find? slot = s.find? slot) := by
  intro s
  have hs : s.Intact := Reached.intact ⟨past, rfl⟩
  refine ⟨hs, fun now r => (serve_follows now r s).revision_le,
    fun now r slot o o' found found' hv => ?_,
    fun slot o calls found hstays => serveAll_persists found hstays,
    fun now r e h slot => find?_serve_of_error h slot⟩
  exact (serve_follows now r s).eq_of_version_eq hs.toSound found found' hv

end Store
end CampaignControl
