import CampaignControl.Proofs.Admission.Requests
import CampaignControl.Proofs.Concurrency.Ensures

/-!
# What an admission pass makes known

Which events an admission pass publishes, and what it has been answered right before
(`Admission.Notice`), beside any others and whatever faults its requests meet
(`Admission.reconcile_ensures`). It tells that a work unit has been admitted right after it has
created this work unit. And it waits for a change only where there is nothing to do for the
campaign.
-/

namespace CampaignControl
namespace Admission

/-- What an admission pass over the campaign at a key makes known of an object after what it has
been answered. -/
def Notice (key : Key) (past : List Exchange) (entity : Key) : Event.Payload → Prop
  | .admitted index repositories =>
    entity = (indexSlot key index).key ∧ ∃ front s₁ s₂ s₃ stored m, ∃ u : WorkUnit,
      past = front ++ [.creation .workUnit (Resource.encode u) stored s₁ s₂, .measurement m s₃] ∧
      u.key = entity ∧ u.spec.repositories.length = repositories ∧
      s₂.find? (indexSlot key index) = some stored ∧
      stored.metadata.uid = some (.issued (s₁.created + 1))
  | .adopted index => entity = (indexSlot key index).key
  | .drainRequested | .admissionRejected _ => True
  | .executionCreated .. | .phaseChanged .. | .orphanRemoved | .retentionExpired | .finalized =>
    False

/-- What a pass requests: it publishes such events, and writes no work unit back. -/
def Tells (key : Key) (past : List Exchange) : Request → Prop
  | .publish e => Notice key past e.entity e.payload
  | .store (.update kind _) => kind ≠ .workUnit
  | .store _ | .discover _ | .correlate | .measure _ => True

/-- There is nothing to do for the campaign at a key: it is not stored, or it is to be deleted. -/
def IsGone (key : Key) (s : Store) : Prop :=
  ∀ o, s.find? (campaignSlot key) = some o → o.metadata.isDeleting

/-- What an admission pass requests that is neither about a document nor about a single work unit
that is created. -/
def IsRoutine : Request → Prop
  | .store (.create ..) => False
  | .store (.update kind _) => kind = .campaign
  | .publish e => e.payload = .drainRequested ∨ ∃ reason, e.payload = .admissionRejected reason
  | .store (.get ..) | .store (.list ..) | .store (.delete ..) | .discover _ | .correlate
  | .measure _ => True

variable {others : Others} {key : Key} {campaign : Campaign} {past : List Exchange} {s : Store}

theorem tells_of_isRoutine {r : Request} (h : IsRoutine r) : Tells key past r := by
  cases r with
  | discover | correlate | measure => trivial
  | publish e =>
    show Notice key past e.entity e.payload
    rcases h with h | ⟨reason, h⟩ <;> rw [h] <;> trivial
  | store r =>
    cases r with
    | get | list | delete | create => trivial
    | update kind object =>
      cases (show kind = .campaign from h)
      exact nofun

theorem action_ne_awaitChange (outcome : Outcome) (policy : RequeuePolicy) :
    outcome.action policy ≠ .awaitChange := by
  unfold Outcome.action
  split
  · exact nofun
  · split <;> exact nofun

/-! ## The parts of a pass -/

section
variable {ok : List Exchange → Request → Prop} (settings : Settings) (correlation : Uid)
  (now : Instant) (hok : ∀ {past r}, IsRoutine r → ok past r)
include hok

theorem modifyCampaign_ensures {change : Campaign → Campaign × Option Unit}
    (hmetadata : ∀ c, (change c).1.metadata = c.metadata) :
    (modifyCampaign settings campaign change).Ensures others ok (fun _ _ => True)
      (fun _ _ _ => True) past s := by
  unfold modifyCampaign
  apply Pass.Ensures.bind
  apply Pass.Ensures.modify (.of_metadata hmetadata)
  · exact fun _ => hok trivial
  · exact fun _ _ _ _ _ => hok rfl
  · exact fun _ _ => trivial
  · exact fun _ _ _ _ => .pure trivial
  · exact fun _ _ _ _ _ _ => .pure trivial
  · exact fun _ _ _ _ _ _ _ _ _ _ => .pure trivial

theorem writeStatus_ensures (outcome : Outcome) (admittedAt : Option Instant) :
    (writeStatus settings campaign now outcome admittedAt).Ensures others ok
      (fun _ _ => True) (fun _ _ _ => True) past s :=
  modifyCampaign_ensures settings hok fun _ => rfl

theorem reject_ensures (e : Error) :
    (reject settings campaign correlation now e).Ensures others ok (fun _ _ => True)
      (fun _ _ _ => True) past s := by
  unfold reject
  apply Pass.Ensures.bind
  apply Pass.Ensures.outcome
  apply Program.Ensures.mono (modifyCampaign_ensures settings hok fun _ => rfl)
  exact fun _ _ _ _ => .publish (hok (.inr ⟨_, rfl⟩)) fun _ _ => trivial

theorem drainAll_ensures (keys : List Key) :
    (drainAll campaign correlation keys).Ensures others ok (fun _ _ => True)
      (fun _ _ _ => True) past s := by
  induction keys generalizing past s with
  | nil => exact .pure trivial
  | cons k rest ih =>
    unfold drainAll
    apply Pass.Ensures.bind
    apply Pass.Ensures.delete (hok trivial)
    intro s₁ s₂ reply _ _ _ _
    cases reply with
    | ok => exact .bind (.publish (hok (.inl rfl)) fun _ _ => ih)
    | error e =>
      dsimp only
      split
      · exact .bind (.pure ih)
      · exact .bind (.throw trivial)

theorem drain_ensures (units : List WorkUnit) :
    (drain campaign correlation now units).Ensures others ok (fun _ _ => True)
      (fun _ _ _ => True) past s := by
  unfold drain
  apply Pass.Ensures.bind
  apply (drainAll_ensures correlation hok _).mono
  exact fun _ _ _ _ => .bind (.measure (hok trivial) fun _ _ => .pure trivial)

/-- What a pass ensures that is there to stay, given what it ensures from when it admits. -/
theorem passOver_ensures
    (hadmits : ∀ {past : List Exchange} {s : Store} {units : List WorkUnit} {batches : List Batch},
      Knows key campaign past → Cuts campaign batches past →
      (admitAll settings campaign correlation now units batches).Ensures others ok
        (fun _ _ => True) (fun action _ _ => action ≠ .awaitChange) past s)
    (hknows : Knows key campaign past) :
    (passOver settings campaign correlation now).Ensures others ok (fun _ _ => True)
      (fun action _ _ => action ≠ .awaitChange) past s := by
  unfold passOver
  apply Pass.Ensures.bind
  apply Pass.Ensures.list (hok trivial)
  · exact fun _ _ => trivial
  · intro past₁ s₁ units _ _ hquiet _
    split
    · apply Pass.Ensures.bind
      apply (drain_ensures correlation now hok units).mono
      intro outcome past₂ s₂ _
      apply Pass.Ensures.bind
      apply (writeStatus_ensures settings now hok outcome none).mono
      exact fun _ _ _ _ => .pure nofun
    · apply Pass.Ensures.bind
      apply Pass.Ensures.lift
      apply Program.Ensures.request
      refine fun {s₂} _ _ => ⟨hok trivial, fun {reply s₃} _ hanswered => ?_⟩
      cases (show s₃ = s₂ from hanswered)
      cases reply with
      | error reason => exact .throw trivial
      | ok repositories =>
        dsimp only
        split
        · next e _ =>
          apply Pass.Ensures.bind
          apply (reject_ensures settings correlation now hok e).mono
          exact fun _ _ _ _ => .throw trivial
        · next batches hbatches =>
          have hsub : past₁ ⊆ past₁ ++ [.discovery campaign repositories s₂] :=
            List.subset_append_left ..
          have hmem : Exchange.discovery campaign repositories s₂ ∈
              past₁ ++ [.discovery campaign repositories s₂] :=
            List.mem_append_right _ List.mem_cons_self
          exact hadmits (hknows.mono (List.Subset.trans hquiet.subset hsub))
            ⟨s₂, repositories, hmem, hbatches⟩

section
variable (hadmits : ∀ {campaign : Campaign} {correlation : Uid} {past : List Exchange} {s : Store}
  {units : List WorkUnit} {batches : List Batch}, Knows key campaign past →
  Cuts campaign batches past →
  (admitAll settings campaign correlation now units batches).Ensures others ok (fun _ _ => True)
    (fun action _ _ => action ≠ .awaitChange) past s)
include hadmits

theorem pass_ensures :
    (pass settings key now).Ensures others ok (fun _ _ => True)
      (fun action _ s => action = .awaitChange → IsGone key s) past s := by
  unfold pass
  apply Pass.Ensures.bind
  apply Pass.Ensures.find? (hok trivial)
  · exact fun _ _ => trivial
  · intro s₁ object campaign _ hinv found hdecode
    have hkey : campaign.key = key :=
      (others.sound hinv).key_of_decode found hdecode
    have hmetadata : campaign.metadata = object.metadata := Resource.metadata_of_decode hdecode
    have hknows : Knows key campaign (past ++ [.read (campaignSlot key) object s₁]) :=
      ⟨hkey, s₁, object, found, List.mem_append_right _ List.mem_cons_self, hdecode⟩
    dsimp only
    split
    · next hdel =>
      refine .pure fun _ o found' => ?_
      cases found.symm.trans found'
      exact hmetadata ▸ hdel
    · apply Pass.Ensures.bind
      apply Pass.Ensures.correlate (hok trivial)
      intro s₂ correlation _ _
      apply (passOver_ensures settings correlation now hok hadmits
        (hknows.mono (List.subset_append_left ..))).mono
      exact fun action _ _ hne heq => absurd heq hne
  · intro past' s₁ _ _ _ hnone
    refine .pure fun _ o found => ?_
    cases hnone.symm.trans found

/-- What an admission pass ensures, given what it ensures from when it admits, and when it waits for
a change. -/
theorem reconcile_ensures_of_admitAll :
    (reconcile settings key now).Ensures others ok
      (fun result _ s => result = .ok .awaitChange → IsGone key s) past s := by
  apply Pass.Ensures.counted (pass_ensures settings now hok hadmits)
  · exact fun _ => rfl
  · exact fun _ => rfl
  · exact fun _ _ => hok trivial
  · exact fun _ _ _ hend h => hend (Except.ok.inj h)
  · exact fun _ _ _ _ _ _ => nofun

end
end

/-! ## Events -/

section
variable (settings : Settings) (correlation : Uid) (now : Instant)

theorem putDocument_ensures (batches : List Batch) :
    (putDocument settings campaign batches).Ensures others (Tells key) (fun _ _ => True)
      (fun _ _ _ => True) past s := by
  unfold putDocument
  apply Pass.Ensures.bind
  apply Pass.Ensures.create trivial
  · exact fun _ _ _ _ _ => .pure trivial
  · intro past' s₁ e _ _ _ _
    dsimp only
    split
    · apply Pass.Ensures.bind
      apply Pass.Ensures.modify (.of_metadata (metadata_refresh _))
      · exact fun _ => trivial
      · exact fun _ _ _ _ _ => nofun
      · exact fun _ _ => trivial
      · exact fun _ _ _ _ => .pure trivial
      · exact fun _ _ _ _ _ _ => .pure trivial
      · exact fun _ _ _ _ _ _ _ _ _ _ => .pure trivial
    · exact .throw trivial

theorem createAll_ensures (hkey : campaign.key = key) (outcome : Outcome) {units : List WorkUnit}
    (hunits : ∀ u ∈ units, ∃ index batch, u = workUnit campaign index batch now) :
    (createAll campaign correlation outcome units).Ensures others (Tells key) (fun _ _ => True)
      (fun _ _ _ => True) past s := by
  induction units generalizing past s outcome with
  | nil => exact .pure trivial
  | cons u rest ih =>
    obtain ⟨⟨index, batch, rfl⟩, hrest⟩ := List.forall_mem_cons.1 hunits
    have hplace : (workUnit campaign index batch now).key = (indexSlot key index).key := by
      subst hkey
      rfl
    unfold createAll
    apply Pass.Ensures.bind
    apply Pass.Ensures.create trivial
    · intro s₁ created _ _ _ _
      apply Pass.Ensures.bind
      apply Pass.Ensures.measure trivial
      intro s₂ _ _
      apply Pass.Ensures.bind
      apply Pass.Ensures.publish
      · refine ⟨hplace, past, s₁, _, s₂, _, _, workUnit campaign index batch now,
          List.append_assoc .., rfl, rfl, ?_, rfl⟩
        subst hkey
        exact (Store.find?_withNew ..).trans (if_pos rfl)
      · exact fun _ _ => ih _ hrest
    · intro past' s₁ e _ _ _ _
      dsimp only
      split
      · exact .bind (.publish hplace fun _ _ => ih _ hrest)
      · exact .pure trivial

theorem admitAll_ensures (hkey : campaign.key = key) (units : List WorkUnit)
    (batches : List Batch) :
    (admitAll settings campaign correlation now units batches).Ensures others (Tells key)
      (fun _ _ => True) (fun action _ _ => action ≠ .awaitChange) past s := by
  have hunits : ∀ u ∈ (plan campaign units batches now).create,
      ∃ index batch, u = workUnit campaign index batch now := by
    intro u hu
    obtain ⟨index, batch, -, -, rfl⟩ := exists_batch_of_mem_create hu
    exact ⟨index, batch, rfl⟩
  unfold admitAll
  apply Pass.Ensures.bind
  apply (putDocument_ensures settings batches).mono
  intro _ past₁ s₁ _
  apply Pass.Ensures.bind
  apply (createAll_ensures correlation now hkey _ hunits).mono
  intro ⟨outcome, failure⟩ past₂ s₂ _
  apply Pass.Ensures.bind
  apply Pass.Ensures.measure trivial
  intro s₃ _ _
  apply Pass.Ensures.bind
  apply (writeStatus_ensures settings now tells_of_isRoutine outcome (some now)).mono
  intro _ past₄ s₄ _
  cases failure with
  | none => exact .pure (action_ne_awaitChange outcome settings.requeue)
  | some e => exact .throw trivial

/-- What an admission pass makes known, and when it waits for a change. -/
theorem reconcile_ensures :
    (reconcile settings key now).Ensures others (Tells key)
      (fun result _ s => result = .ok .awaitChange → IsGone key s) past s :=
  reconcile_ensures_of_admitAll settings now tells_of_isRoutine fun hknows _ =>
    admitAll_ensures settings _ now hknows.1 _ _

end
end Admission
end CampaignControl
