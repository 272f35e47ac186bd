import CampaignControl.Pass
import CampaignControl.Proofs.Concurrency.World
import CampaignControl.Proofs.Resource.Codec

/-!
# The requests of a pass

The requests of a pass in terms of resources, each as the program that makes them one by one, and
what the answers say: a request to the store is served or refused, and a refusal says neither
that there is no object nor that there is one already (`Request.Answered.store_cases`).
-/

namespace CampaignControl

/-- What is read from an object has the key under which the object is stored. -/
theorem Store.Sound.key_of_decode {α : Type} [Resource α] [LawfulResource α] {s : Store}
    {slot : Slot} {object : Object} {a : α} (hs : s.Sound) (found : s.find? slot = some object)
    (hdecode : Resource.decode object = .ok a) : Resource.key a = slot.key :=
  (Resource.key_of_decode hdecode).trans (hs.key_eq found)

/-! ## Answers -/

/-- The errors with which faults refuse a request. -/
structure StoreRequest.Refusal (r : StoreRequest) (e : StoreError) : Prop where
  not_isNotFound : e.isNotFound = false
  not_isAlreadyExists : e.isAlreadyExists = false

theorem Faults.refusal_of_intercept {faults faults' : Faults} {r : StoreRequest} {e : StoreError}
    (h : faults.intercept r = (some e, faults')) : r.Refusal e := by
  have houtage : r.Refusal outageError := ⟨rfl, rfl⟩
  cases r with
  | get | list | delete =>
    simp only [intercept, Prod.mk.injEq] at h
    obtain ⟨h, -⟩ := h
    split at h
    · cases h; exact houtage
    · cases h
  | create =>
    simp only [intercept] at h
    split at h
    · cases h; exact houtage
    · split at h <;> cases h
      exact ⟨rfl, rfl⟩
  | update =>
    simp only [intercept] at h
    split at h
    · cases h; exact houtage
    · split at h <;> cases h
      exact ⟨rfl, rfl⟩

/-- A request to the store is served, or it is refused and nothing happens. -/
theorem Request.Answered.store_cases {r : StoreRequest} {s s' : Store} {reply : r.Reply}
    (h : (Request.store r).Answered s reply s') :
    (∃ now, s.serve now r = (reply, s')) ∨
      (∃ e, r.Refusal e ∧ reply = .error e ∧ s' = s) := by
  obtain ⟨now, faults, hreply, hstore⟩ := h
  unfold Faults.serve at hreply hstore
  split at hreply
  · next e faults' heq =>
    rw [heq] at hstore
    exact .inr ⟨e, Faults.refusal_of_intercept heq, hreply.symm, hstore.symm⟩
  · next faults' heq =>
    rw [heq] at hstore
    exact .inl ⟨now, Prod.ext hreply hstore⟩

theorem Request.Answered.get_cases {kind : Kind} {key : Key} {s s' : Store}
    {reply : Except StoreError Object}
    (h : (Request.store (.get kind key)).Answered s reply s') :
    s' = s ∧ (∀ object, reply = .ok object → s.find? { kind, key } = some object) ∧
      (∀ e, reply = .error e → e.isNotFound → s.find? { kind, key } = none) := by
  rcases h.store_cases with ⟨now, h⟩ | ⟨e, hrefusal, rfl, rfl⟩
  · simp only [Store.serve, Store.get, Prod.mk.injEq] at h
    obtain ⟨rfl, rfl⟩ := h
    refine ⟨rfl, fun object h => ?_, fun e h _ => ?_⟩
    · split at h
      · next found => cases h; exact found
      · cases h
    · split at h
      · cases h
      · next found => exact found
  · refine ⟨rfl, fun object h => (by cases h), fun e' h hnot => ?_⟩
    cases h
    rw [hrefusal.not_isNotFound] at hnot
    cases hnot

theorem Request.Answered.list_cases {kind : Kind} {filter : Filter} {s s' : Store}
    {reply : Except StoreError (List Object)}
    (h : (Request.store (.list kind filter)).Answered s reply s') :
    s' = s ∧ ∀ objects, reply = .ok objects → objects = s.list kind filter := by
  rcases h.store_cases with ⟨now, h⟩ | ⟨e, -, rfl, rfl⟩
  · cases h
    exact ⟨rfl, fun objects h => by cases h; rfl⟩
  · exact ⟨rfl, fun objects h => by cases h⟩

theorem Request.Answered.create_cases {kind : Kind} {object : Object} {s s' : Store}
    {reply : Except StoreError Object}
    (h : (Request.store (.create kind object)).Answered s reply s') :
    (∃ now, s.find? { kind, key := object.key } = none ∧ reply = .ok (s.newborn now object) ∧
      s' = s.withNew now { kind, key := object.key } object) ∨
    (∃ e, reply = .error e ∧ s' = s ∧
      (e.isAlreadyExists → s.find? { kind, key := object.key } ≠ none)) := by
  rcases h.store_cases with ⟨now, h⟩ | ⟨e, hrefusal, hreply, hsame⟩
  · replace h : s.create now kind object = (reply, s') := h
    cases hfind : s.find? { kind, key := object.key } with
    | none =>
      rw [Store.create_of_find?_none now hfind] at h
      cases h
      exact .inl ⟨now, rfl, rfl, rfl⟩
    | some old =>
      rw [Store.create_of_find?_some now hfind] at h
      cases h
      exact .inr ⟨_, rfl, rfl, fun _ => nofun⟩
  · refine .inr ⟨e, hreply, hsame, fun hexists => ?_⟩
    rw [hrefusal.not_isAlreadyExists] at hexists
    cases hexists

theorem Request.Answered.delete_cases {kind : Kind} {key : Key} {propagation : Propagation}
    {s s' : Store} {reply : Except StoreError Unit}
    (h : (Request.store (.delete kind key propagation)).Answered s reply s') :
    s.Deletions s' ∧
      ((∀ e, reply = .error e → e.isNotFound) →
        (∀ object, s.find? { kind, key } = some object → object.metadata.finalizers = []) →
        s'.find? { kind, key } = none) := by
  rcases h.store_cases with ⟨now, h⟩ | ⟨e, hrefusal, rfl, rfl⟩
  · replace h : s.delete now kind key propagation = (reply, s') := h
    have hdel := Store.delete_deletions now kind key propagation s
    rw [h] at hdel
    refine ⟨hdel, fun _ hfin => ?_⟩
    have hgone := Store.find?_delete now kind key propagation hfin
    rwa [h] at hgone
  · refine ⟨.refl, fun hnot => ?_⟩
    have := hnot e rfl
    rw [hrefusal.not_isNotFound] at this
    cases this

/-- A change that is based on what was read from an earlier store. It is made only if what was
read is still there, because no version is used twice, and nothing happens otherwise. -/
theorem Request.Answered.update_cases {earlier s s' : Store} {slot : Slot}
    {object changed : Object} {reply : Except StoreError Object}
    (h : (Request.store (.update slot.kind changed)).Answered s reply s')
    (hsound : earlier.Sound) (hfollows : earlier.Follows s)
    (hfind : earlier.find? slot = some object) (hkey : changed.key = object.key)
    (hversion : changed.metadata.version = object.metadata.version) :
    (s.find? slot = some object ∧ (∃ now, s.update now slot.kind changed = (reply, s')) ∧
      reply = .ok (s.revised object changed) ∧
      (s.withRevised slot object changed).Deletions s' ∧
      (changed.metadata.finalizers ≠ [] → s' = s.withRevised slot object changed)) ∨
    (∃ e, reply = .error e ∧ s' = s ∧ (e.isNotFound → s.find? slot = none)) := by
  have hslot : ({ kind := slot.kind, key := changed.key } : Slot) = slot :=
    congrArg (Slot.mk _) (hkey.trans (hsound.key_eq hfind))
  rcases h.store_cases with ⟨now, h⟩ | ⟨e, hrefusal, hreply, hsame⟩
  · replace h : s.update now slot.kind changed = (reply, s') := h
    cases hnow : s.find? slot with
    | none =>
      rw [Store.update_of_find?_none now (hslot ▸ hnow)] at h
      cases h
      exact .inr ⟨_, rfl, rfl, fun _ => rfl⟩
    | some old =>
      by_cases hold : old.metadata.version = changed.metadata.version
      · -- the version is the one that was read, and so is the object
        cases hfollows.eq_of_version_eq hsound hfind hnow (hold.trans hversion)
        obtain ⟨after, hupdate, hdel, hkept⟩ := Store.update_of_version_eq now (hslot ▸ hnow) hold
        rw [hslot] at hdel hkept
        rw [hupdate] at h
        cases h
        exact .inl ⟨rfl, ⟨now, hupdate⟩, rfl, hdel, hkept⟩
      · rw [Store.update_of_version_ne now (hslot ▸ hnow) hold] at h
        cases h
        exact .inr ⟨_, rfl, rfl, fun hnot => by cases hnot⟩
  · refine .inr ⟨e, hreply, hsame, fun hnot => ?_⟩
    rw [hrefusal.not_isNotFound] at hnot
    cases hnot

/-! ## Programs -/

namespace Pass

variable {α β : Type} [Resource α]

/-- What a pass makes of the reply to its reading an object. -/
def found? : Except StoreError Object → Except Error (Option α)
  | .ok object =>
    match Resource.decode object with
    | .ok a => .ok (some a)
    | .error e => .error (.store e)
  | .error e => if e.isNotFound then .ok none else .error (.store e)

/-- An object is found when one has been read that is of its kind. -/
theorem found?_eq_some {reply : Except StoreError Object} {a : α}
    (h : found? reply = .ok (some a)) :
    ∃ object, reply = .ok object ∧ Resource.decode object = .ok a := by
  cases reply with
  | ok object =>
    simp only [found?] at h
    split at h
    · next hdecode => cases h; exact ⟨object, rfl, hdecode⟩
    · cases h
  | error e =>
    simp only [found?] at h
    split at h <;> cases h

theorem found?_eq_none {reply : Except StoreError Object}
    (h : (found? reply : Except Error (Option α)) = .ok none) :
    ∃ e, reply = .error e ∧ e.isNotFound := by
  cases reply with
  | ok object =>
    simp only [found?] at h
    split at h <;> cases h
  | error e =>
    simp only [found?] at h
    split at h
    · next hnot => exact ⟨e, rfl, hnot⟩
    · cases h

theorem run_find? (key : Key) :
    (find? key : Pass (Option α)).run =
      .ask (.store (.get (Resource.kind α) key)) fun reply => .done (found? reply) := by
  refine congrArg (Program.ask _) (funext fun reply => ?_)
  cases reply with
  | ok object =>
    show (some <$> ofStore (Resource.decode object) : Pass (Option α)).run = _
    simp only [found?]
    cases (Resource.decode object : Except StoreError α) <;> rfl
  | error e =>
    show (if e.isNotFound then pure none else throw (.store e) : Pass (Option α)).run = _
    simp only [found?]
    cases e.isNotFound <;> rfl

/-- Whether a change leaves the key and the version of an object alone. -/
def KeepsPlace (change : α → α × Option β) : Prop :=
  ∀ ⦃current changed note⦄, change current = (changed, some note) →
    (Resource.metadata changed).key = (Resource.metadata current).key ∧
      (Resource.metadata changed).version = (Resource.metadata current).version

/-- Whatever leaves the metadata alone keeps the place of an object. -/
theorem KeepsPlace.of_metadata {change : α → α × Option β}
    (h : ∀ a, Resource.metadata (change a).1 = Resource.metadata a) : KeepsPlace change := by
  intro current changed note hchange
  have hmetadata := h current
  rw [hchange] at hmetadata
  exact ⟨congrArg Metadata.key hmetadata, congrArg Metadata.version hmetadata⟩

theorem run_update {γ : Type} (a : α) (f : Except StoreError α → Pass γ) :
    (lift (update a) >>= f).run =
      .ask (.store (.update (Resource.kind α) (Resource.encode a))) fun reply =>
        (f (decoded reply)).run := rfl

theorem decoded_newborn [LawfulResource α] (s : Store) (now : Instant) (a : α) :
    decoded (.ok (s.newborn now (Resource.encode a))) =
      .ok (Resource.setMetadata (s.newborn now (Resource.encode a)).metadata a) :=
  Resource.decode_stored _ a

theorem decoded_revised [LawfulResource α] (s : Store) (old : Object) (a : α) :
    decoded (.ok (s.revised old (Resource.encode a))) =
      .ok (Resource.setMetadata (s.revised old (Resource.encode a)).metadata a) :=
  Resource.decode_stored _ a

section modify

variable (key : Key) (change : Nat → α → α × Option β) (attempts left : Nat)

/-- What a change goes on with after its writing an object back. -/
def afterWrite (note : β) (reply : Except StoreError Object) :
    Program (Except Error (Option (α × Option β))) :=
  match decoded reply with
  | .ok stored => .done (.ok (some (stored, some note)))
  | .error e =>
    if e.isConflict then (modifyWithin key change attempts left).run
    else if e.isNotFound then .done (.ok none)
    else .done (.error (.store e))

theorem afterWrite_revised [LawfulResource α] (s : Store) (old : Object) (changed : α) (note : β) :
    afterWrite key change attempts left note (.ok (s.revised old (Resource.encode changed))) =
      .done (.ok (some (Resource.setMetadata
        (s.revised old (Resource.encode changed)).metadata changed, some note))) := by
  rw [afterWrite, decoded_revised]

theorem afterWrite_of_isConflict {e : StoreError} (h : e.isConflict) (note : β) :
    afterWrite key change attempts left note (.error e) =
      (modifyWithin key change attempts left).run := if_pos h

/-- What a change goes on with after its reading an object. -/
def afterRead (reply : Except StoreError Object) :
    Program (Except Error (Option (α × Option β))) :=
  match found? reply with
  | .error e => .done (.error e)
  | .ok none => .done (.ok none)
  | .ok (some current) =>
    match change left current with
    | (same, none) => .done (.ok (some (same, none)))
    | (changed, some note) =>
      .ask (.store (.update (Resource.kind α) (Resource.encode changed)))
        (afterWrite key change attempts left note)

theorem run_modifyWithin_succ :
    (modifyWithin key change attempts (left + 1)).run =
      .ask (.store (.get (Resource.kind α) key)) (afterRead key change attempts left) := by
  rw [modifyWithin, ExceptT.run_bind, run_find?]
  refine congrArg (Program.ask _) (funext fun reply => ?_)
  simp only [afterRead]
  cases (found? reply : Except Error (Option α)) with
  | error e => rfl
  | ok current =>
    cases current with
    | none => rfl
    | some current =>
      show (match change left current with | (same, none) => _ | (changed, some note) => _ :
        Pass (Option (α × Option β))).run = _
      dsimp only
      generalize change left current = outcome
      obtain ⟨changed, note⟩ := outcome
      cases note with
      | none => rfl
      | some note =>
        dsimp only
        rw [run_update]
        refine congrArg (Program.ask _) (funext fun reply => ?_)
        simp only [afterWrite]
        cases (decoded reply : Except StoreError α) with
        | ok stored => rfl
        | error e => cases hc : e.isConflict <;> cases hn : e.isNotFound <;> simp [hc, hn] <;> rfl

end modify

/-- A change has at least one attempt. -/
theorem run_modify (key : Key) (attempts : Nat) (change : α → α × Option β) :
    (modify key attempts change).run =
      .ask (.store (.get (Resource.kind α) key)) (afterRead key (fun _ => change) (max attempts 1)
        (max attempts 1 - 1)) := by
  obtain ⟨left, hleft⟩ : ∃ left, max attempts 1 = left + 1 :=
    ⟨max attempts 1 - 1, (Nat.sub_add_cancel (Nat.le_max_right _ _)).symm⟩
  rw [modify, modifyBy]
  conv_lhs => rw [hleft, run_modifyWithin_succ]
  rw [hleft, Nat.add_sub_cancel]

end Pass
end CampaignControl
