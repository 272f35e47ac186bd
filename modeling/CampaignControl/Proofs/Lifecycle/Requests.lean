import CampaignControl.Proofs.Concurrency.History
import CampaignControl.Proofs.Lifecycle.Outline

/-!
# The requests of a lifecycle pass

What a lifecycle pass requests, and what it has been answered before that (`Lifecycle.Asks`,
`Lifecycle.reconcile_heeds`). It deletes work units and executions, but creates executions only,
each for a work unit that was stored, and what it writes is a work unit as it has read it, with the
same owner and the same specification.
-/

namespace CampaignControl
namespace Lifecycle

/-- A work unit was stored with its identity at an exchange. -/
def Known (u : WorkUnit) (past : List Exchange) : Prop :=
  ∃ e ∈ past, ∃ o, e.before.find? (unitSlot u.key) = some o ∧ o.metadata.uid = u.metadata.uid

/-- What a lifecycle pass requests after what it has been answered. -/
inductive Asks (past : List Exchange) : Request → Prop where
  | get (kind : Kind) (k : Key) : Asks past (.store (.get kind k))
  | correlate : Asks past .correlate
  | measure (m : Measurement) : Asks past (.measure m)
  | publish (e : Event) : Asks past (.publish e)
  | delete {kind : Kind} (k : Key) : kind = .workUnit ∨ kind = .execution →
    Asks past (.store (.delete kind k .background))
  | create {u : WorkUnit} : Known u past →
    Asks past (.store (.create .execution (Resource.encode u.toExecution)))
  | change {k : Key} {s : Store} {object : Object} {current changed : WorkUnit} :
    .read (unitSlot k) object s ∈ past → Resource.decode object = .ok current →
    Retains current changed → changed.spec = current.spec →
    Asks past (.store (.update .workUnit (Resource.encode changed)))

variable {key : Key} {u : WorkUnit} {past past' : List Exchange}

theorem Known.mono (h : Known u past) (hsub : past ⊆ past') : Known u past' := by
  obtain ⟨e, he, hmet⟩ := h
  exact ⟨e, hsub he, hmet⟩

/-- A work unit that has been read is known. -/
theorem known_of_read {s : Store} {object : Object} (hs : s.Sound)
    (hread : .read (unitSlot key) object s ∈ past) (hfind : s.find? (unitSlot key) = some object)
    (hdecode : Resource.decode object = .ok u) : Known u past := by
  have hkey : u.key = key := (Resource.key_of_decode hdecode).trans (hs.key_eq hfind)
  have hmetadata : u.metadata = object.metadata := Resource.metadata_of_decode hdecode
  exact ⟨_, hread, object, hkey ▸ hfind, congrArg Metadata.uid hmetadata.symm⟩

/-- What a pass replaces is a work unit that it has read. -/
theorem Asks.exists_read {kind : Kind} {object : Object}
    (h : Asks past (.store (.update kind object))) :
    kind = .workUnit ∧ ∃ k s o current changed, .read (unitSlot k) o s ∈ past ∧
      Resource.decode o = .ok current ∧ Retains current changed ∧ changed.spec = current.spec ∧
      object = Resource.encode changed := by
  cases h with
  | @change k s o current changed hread hdecode hretains hspec =>
    exact ⟨rfl, k, s, o, current, changed, hread, hdecode, hretains, hspec, rfl⟩

/-- What a pass replaces is a work unit that it has read as it is stored. -/
theorem Asks.exists_stored {kind : Kind} {object old : Object} {s : Store}
    (h : Asks past (.store (.update kind object))) (hpast : Genuine past s)
    (hold : s.find? { kind, key := object.key } = some old)
    (hv : object.metadata.version = old.metadata.version) :
    kind = .workUnit ∧ ∃ current changed : WorkUnit, Resource.decode old = .ok current ∧
      Retains current changed ∧ changed.spec = current.spec ∧ object = Resource.encode changed := by
  obtain ⟨rfl, k, s₀, o, current, changed, hread, hdecode, hretains, hspec, rfl⟩ := h.exists_read
  have hmetadata : current.metadata = o.metadata := Resource.metadata_of_decode hdecode
  have hkey : (Resource.encode changed).key = o.key :=
    hretains.key.trans (congrArg Metadata.key hmetadata)
  cases (hpast _ hread).eq_of_write hkey
    (hretains.version.trans (congrArg Metadata.version hmetadata)) hold hv
  exact ⟨rfl, current, changed, hdecode, hretains, hspec, rfl⟩

/-! ## The parts of a pass -/

section
variable (settings : Settings) (correlation : Uid) (now : Instant)

/-- A change of a work unit that keeps its owner and its specification. -/
theorem modifyUnit_heeds {β : Type} {change : WorkUnit → WorkUnit × Option β}
    {post : Option (WorkUnit × Option β) → List Exchange → Prop}
    (hretains : ∀ {u changed note}, change u = (changed, some note) →
      Retains u changed ∧ changed.spec = u.spec)
    (hsame : ∀ {u same}, change u = (same, none) → same = u)
    (hnone : ∀ {past'}, past ⊆ past' → post none past')
    (hsome : ∀ {past'} {u : WorkUnit} {note : Option β}, past ⊆ past' → Known u past' →
      post (some (u, note)) past') :
    (modifyUnit settings key change).Heeds Asks post past := by
  unfold modifyUnit
  apply Pass.Heeds.modify
  · exact fun _ => .get ..
  · intro past' s object current changed note _ hread hdecode hchange
    obtain ⟨hkept, hspec⟩ := hretains hchange
    exact .change hread hdecode hkept hspec
  · exact hnone
  · intro past' s object current same hsub hread hs hfind hdecode hchange
    cases hsame hchange
    exact hsome hsub (known_of_read hs hread hfind hdecode)
  · intro past' e o a note hsub he hfind huid
    exact hsome hsub ⟨e, he, o, hfind, huid.symm⟩

theorem finalize_heeds (u : WorkUnit) :
    (finalize settings correlation u).Heeds Asks (fun _ _ => True) past := by
  have hrest : ∀ {past' : List Exchange},
      (do let _ ← modifyUnit settings u.key release
          publish correlation u .finalized : Pass Unit).Heeds Asks (fun _ _ => True) past' := by
    intro past'
    apply Pass.Heeds.bind
    apply modifyUnit_heeds
    · intro u changed note hchange
      have hretains := retains_release hchange
      cases eq_of_release hchange
      exact ⟨hretains, rfl⟩
    · intro u same hchange
      unfold release at hchange
      split at hchange
      · cases hchange
      · cases hchange
        rfl
    · exact fun _ => .publish (.publish _) fun _ => trivial
    · exact fun _ _ => .publish (.publish _) fun _ => trivial
  unfold finalize
  split
  · apply Pass.Heeds.bind
    apply Pass.Heeds.delete (.delete _ (.inr rfl))
    intro past' reply _
    cases reply with
    | ok => exact hrest
    | error e =>
      dsimp only
      split
      · exact hrest
      · exact .bind (.throw _)
  · exact .pure trivial

theorem deleteRecord_heeds (u : WorkUnit) (reason : Event.Payload) :
    (deleteRecord settings correlation u reason).Heeds Asks (fun _ _ => True) past := by
  unfold deleteRecord
  apply Pass.Heeds.bind
  apply Pass.Heeds.delete (.delete _ (.inl rfl))
  intro past₁ reply _
  cases reply with
  | error e =>
    dsimp only
    split
    · exact .pure trivial
    · exact .throw _
  | ok =>
    apply Pass.Heeds.bind
    apply Pass.Heeds.publish (.publish _)
    intro past₂ _
    apply Pass.Heeds.bind
    apply Pass.Heeds.find? (.get ..)
    · intro past₃ s object current _ _ _ _ _
      dsimp only
      split
      · exact finalize_heeds settings correlation current
      · exact .pure trivial
    · exact fun _ => .pure trivial

theorem retainOrClean_heeds (u : WorkUnit) :
    (retainOrClean settings correlation now u).Heeds Asks (fun _ _ => True) past := by
  unfold retainOrClean
  split
  · split
    · apply Pass.Heeds.bind
      apply Pass.Heeds.mono (deleteRecord_heeds settings correlation u _)
      exact fun _ _ _ => .pure trivial
    · exact .pure trivial
  · exact .pure trivial

/-- An execution that is there is recorded. The pass goes on with `rest`. -/
theorem record_heeds {execution : Execution}
    {rest : Option (WorkUnit × Option Unit) → Pass (Option (WorkUnit × Execution))}
    (hnone : rest none = pure none)
    (hsome : ∀ updated note, rest (some (updated, note)) = do
      publish correlation updated (.executionCreated execution.key u.spec.batchIndex)
      return some (updated, execution)) :
    (modifyUnit settings u.key (recordExecution now execution.key) >>= rest).Heeds Asks
      (fun _ _ => True) past := by
  apply Pass.Heeds.bind
  apply modifyUnit_heeds
  · intro u changed note hchange
    exact ⟨retains_recordExecution hchange, (WorkUnit.records_of_recordExecution hchange).spec⟩
  · intro u same hchange
    unfold recordExecution at hchange
    split at hchange
    · cases hchange
      rfl
    · cases hchange
  · intro past' _
    rw [hnone]
    exact .pure trivial
  · intro past' updated note _ _
    rw [hsome]
    apply Pass.Heeds.bind
    exact .publish (.publish _) fun _ => .pure trivial

theorem startExecution_heeds (hknown : Known u past) :
    (startExecution settings correlation now u).Heeds Asks (fun _ _ => True) past := by
  unfold startExecution
  apply Pass.Heeds.bind
  apply Pass.Heeds.create (.create hknown)
  intro past₁ reply _ _
  cases reply with
  | ok created =>
    apply Pass.Heeds.bind
    exact .pure (record_heeds settings correlation now rfl fun _ _ => rfl)
  | error e =>
    dsimp only
    split
    · apply Pass.Heeds.bind
      exact .get (.get ..) fun execution _ =>
        record_heeds settings correlation now rfl fun _ _ => rfl
    · exact .bind (.throw _)

theorem announce_heeds (u : WorkUnit) (old : WorkUnit.Phase) :
    (announce correlation u old).Heeds Asks (fun _ _ => True) past := by
  unfold announce
  dsimp only
  split
  · apply Pass.Heeds.bind
    apply Pass.Heeds.measure (.measure _)
    exact fun _ => .publish (.publish _) fun _ => trivial
  · exact .publish (.publish _) fun _ => trivial

theorem takeOver_heeds (execution : Execution) :
    (takeOver settings correlation now key execution).Heeds Asks (fun _ _ => True) past := by
  have hgoOn : ∀ {past' : List Exchange} (u : WorkUnit),
      (if u.status.phase.isTerminal then retainOrClean settings correlation now u
        else return .afterSeconds settings.requeue.whileActive : Pass Action).Heeds Asks
        (fun _ _ => True) past' := by
    intro past' u
    split
    · exact retainOrClean_heeds settings correlation now u
    · exact .pure trivial
  unfold takeOver
  apply Pass.Heeds.bind
  apply modifyUnit_heeds
  · intro u changed note hchange
    have hmoved := advance?_of_follow hchange
    exact ⟨retains_advance? hmoved, (WorkUnit.advance_of_advance? hmoved).spec⟩
  · exact eq_of_follow_none
  · exact fun _ => .pure trivial
  · intro past' u left _ _
    cases left with
    | none => exact .bind (.pure (hgoOn u))
    | some old =>
      apply Pass.Heeds.bind
      apply Pass.Heeds.mono (announce_heeds correlation u old)
      exact fun _ _ _ => hgoOn u

theorem passOver_heeds (hknown : Known u past) :
    (passOver settings correlation now key u).Heeds Asks (fun _ _ => True) past := by
  unfold passOver
  split
  · exact retainOrClean_heeds settings correlation now u
  · split
    · apply Pass.Heeds.bind
      apply Pass.Heeds.mono (startExecution_heeds settings correlation now hknown)
      intro started past' _
      cases started with
      | none => exact .pure trivial
      | some started => exact takeOver_heeds settings correlation now started.2
    · apply Pass.Heeds.bind
      apply Pass.Heeds.find? (.get ..)
      · intro past' s object execution _ _ _ _ _
        exact takeOver_heeds settings correlation now execution
      · intro past' _
        apply Pass.Heeds.bind
        apply Pass.Heeds.mono (deleteRecord_heeds settings correlation u _)
        exact fun _ _ _ => .pure trivial

theorem pass_heeds : (pass settings key now).Heeds Asks (fun _ _ => True) past := by
  unfold pass
  apply Pass.Heeds.bind
  apply Pass.Heeds.find? (.get ..)
  · intro past₁ s object u hsub hread hs hfind hdecode
    have hknown := known_of_read hs hread hfind hdecode
    apply Pass.Heeds.bind
    apply Pass.Heeds.correlate .correlate
    intro past₂ correlation hsub₂
    split
    · apply Pass.Heeds.bind
      apply Pass.Heeds.mono (finalize_heeds settings correlation u)
      exact fun _ _ _ => .pure trivial
    · split
      · exact passOver_heeds settings correlation now (hknown.mono hsub₂)
      · apply Pass.Heeds.bind
        apply modifyUnit_heeds
        · intro u changed note hchange
          have hretains := retains_guard hchange
          cases eq_of_guard hchange
          exact ⟨hretains, rfl⟩
        · exact fun hchange => (eq_of_guard_none hchange).1
        · exact fun _ => .pure trivial
        · intro past₃ guarded note _ hguarded
          exact passOver_heeds settings correlation now hguarded
  · exact fun _ => .pure trivial

/-- A lifecycle pass requests nothing else, counted or not. -/
theorem reconcile_heeds :
    (reconcile settings key now).Heeds Asks (fun _ _ => True) past := by
  unfold reconcile
  apply Program.Heeds.bind
  apply Program.Heeds.mono (pass_heeds settings now)
  intro result past' _
  cases result with
  | ok action => exact trivial
  | error e =>
    apply Program.Heeds.bind
    exact .request (.measure _) fun _ _ => trivial

end
end Lifecycle
end CampaignControl
