import CampaignControl.Proofs.Admission.Notices
import CampaignControl.Proofs.Dispatch

/-!
# The document before the work units

An admission pass creates no work unit before the configuration document has had the batches of the
pass: it has created the document, found it up to date or written it (`Admission.Founded`,
`Admission.reconcile_founds`). This needs others who leave documents where they are
(`Admission.lasting`). A pass takes a document that has gone between two requests for one that it
need not write.
-/

namespace CampaignControl
namespace Admission

variable {key : Key} {campaign : Campaign} {batches : List Batch} {past past' : List Exchange}
  {s : Store}

/-- A document is up to date if it has the batches, and the base configuration but for the signs of
zeros. -/
theorem upToDate_iff {d : ConfigDocument} :
    refresh (document campaign batches) d = (d, none) ↔
      (Json.object d.baseConfig).same (.object campaign.spec.baseConfig) ∧
        d.batches = batches.map Dispatch.document := by
  unfold refresh
  constructor
  · intro h
    split at h
    · next hsame =>
      exact ⟨hsame.1, Json.eq_of_sameItems _ _ (Dispatch.itemsAreExact_documents batches) hsame.2⟩
    · cases congrArg Prod.snd h
  · rintro ⟨hbase, hbatches⟩
    exact if_pos ⟨hbase, hbatches ▸ Json.same_self _⟩

/-- The document of the campaign at a key has these batches. -/
def Documents (key : Key) (batches : List Batch) (s : Store) : Prop :=
  ∃ (o : Object) (d : ConfigDocument), s.find? (batchesSlot key) = some o ∧
    Resource.decode o = .ok d ∧ d.batches = batches.map Dispatch.document

/-- After a pass had come to its batches, the document has had them at some time. -/
def Founded (key : Key) (past : List Exchange) : Prop :=
  ∃ campaign batches front e, Knows key campaign front ∧ Cuts campaign batches front ∧
    Documents key batches e.after ∧ front ++ [e] <+: past

theorem Founded.mono (h : Founded key past) (hlater : past <+: past') : Founded key past' := by
  obtain ⟨campaign, batches, front, e, hknows, hcuts, hdocuments, hfront⟩ := h
  exact ⟨campaign, batches, front, e, hknows, hcuts, hdocuments, hfront.trans hlater⟩

theorem Founded.append (h : Founded key past) (e : Exchange) : Founded key (past ++ [e]) :=
  h.mono (List.prefix_append ..)

/-- A work unit is created only when the document has had the batches of the pass. -/
def Founds (key : Key) (past : List Exchange) : Request → Prop
  | .store (.create .workUnit _) => Founded key past
  | _ => True

theorem founds_of_isRoutine {r : Request} (h : IsRoutine r) : Founds key past r := by
  cases r with
  | discover | correlate | measure | publish => trivial
  | store r =>
    cases r with
    | get | list | delete | update => trivial
    | create => exact h.elim

/-- Others who neither remove a document nor request its deletion. -/
def lasting : Others where
  inv s := s.Sound ∧ ∀ k o, s.find? { kind := .configDocument, key := k } = some o →
    o.metadata.isDeleting = false
  rely s s' := s.Follows s' ∧ ∀ k, s.find? { kind := .configDocument, key := k } ≠ none →
    s'.find? { kind := .configDocument, key := k } ≠ none
  sound h := h.1
  follows h := h.1
  refl s := ⟨.refl s, fun _ => id⟩
  trans h h' := ⟨h.1.trans h'.1, fun k hthere => h'.2 k (h.2 k hthere)⟩

section
variable (settings : Settings) (correlation : Uid) (now : Instant)

/-- A document that is not to be deleted is there with its new contents when it has been written. -/
theorem documents_of_written {object : Object} {changed : ConfigDocument} {s s' : Store}
    (hs : lasting.inv s) (found : s.find? (batchesSlot key) = some object)
    (hmetadata : changed.metadata = object.metadata)
    (hbatches : changed.batches = batches.map Dispatch.document) {stored : Object}
    (hanswered : (Request.store (.update .configDocument (Resource.encode changed))).Answered s
      (.ok stored) s') : Documents key batches s' := by
  have hkey : (Resource.encode changed).key = (batchesSlot key).key :=
    (congrArg Metadata.key hmetadata).trans (hs.1.key_eq found)
  have hversion : (Resource.encode changed).metadata.version = object.metadata.version :=
    congrArg Metadata.version hmetadata
  rcases hanswered.store_cases with ⟨clock, hserve⟩ | ⟨e, -, herror, -⟩
  · have hupdate : s.update clock .configDocument (Resource.encode changed) = _ :=
      Store.update_of_held clock found hkey hversion fun hdel =>
        absurd (hs.2 _ object found) (by simp [hdel])
    cases hupdate.symm.trans hserve
    exact ⟨_, _, (Store.find?_withRevised ..).trans (if_pos rfl),
      Resource.decode_stored _ changed, hbatches⟩
  · cases herror

theorem putDocument_founds (hknows : Knows key campaign past) (hcuts : Cuts campaign batches past) :
    (putDocument settings campaign batches).Ensures lasting (Founds key) (fun _ _ => True)
      (fun _ past' _ => Founded key past') past s := by
  have hfounded : ∀ {past' : List Exchange} {e : Exchange}, past ⊆ past' →
      Documents key batches e.after → Founded key (past' ++ [e]) :=
    fun hsub hdocuments =>
      ⟨campaign, batches, _, _, hknows.mono hsub, hcuts.mono hsub, hdocuments, List.prefix_rfl⟩
  obtain ⟨hkey, -⟩ := id hknows
  have hslot : Resource.slot (document campaign batches) = batchesSlot key := by
    subst hkey
    rfl
  unfold putDocument
  apply Pass.Ensures.bind
  apply Pass.Ensures.create trivial
  · intro s₁ created _ _ _ _
    have found : (s₁.withNew created (Resource.slot (document campaign batches))
        (Resource.encode (document campaign batches))).find? (batchesSlot key) = some _ :=
      (Store.find?_withNew ..).trans (if_pos hslot)
    exact .pure (hfounded (List.Subset.refl _)
      ⟨_, _, found, Resource.decode_stored _ (document campaign batches), rfl⟩)
  · intro past' s₁ e _ _ hquiet hexists
    rw [hslot] at hexists
    have hplace : (document campaign batches).metadata.key = (batchesSlot key).key :=
      congrArg Slot.key hslot
    dsimp only
    split
    · next halready =>
      rw [hplace]
      apply Pass.Ensures.bind
      apply Pass.Ensures.modify (.of_metadata (metadata_refresh _))
      · exact fun _ => trivial
      · exact fun _ _ _ _ _ => trivial
      · exact fun _ _ => trivial
      · -- the document was there when its creation was refused
        intro past'' s₂ hrely _ _ hnone
        exact absurd hnone (hrely.2 _ (hexists halready))
      · intro past'' s₂ object current same _ _ hquiet' found hdecode hchange
        obtain rfl := eq_of_refresh hchange
        exact .pure (hfounded (List.Subset.trans hquiet.subset hquiet'.subset)
          ⟨object, same, found, hdecode, (upToDate_iff.1 hchange).2⟩)
      · intro past'' s₂ s₃ object current changed note _ hinv _ hquiet' found hdecode hchange
          hanswered _ _
        refine .pure (hfounded (List.Subset.trans hquiet.subset hquiet'.subset) ?_)
        have hmetadata : changed.metadata = object.metadata := by
          have hsame := metadata_refresh (document campaign batches) current
          rw [hchange] at hsame
          exact hsame.trans (Resource.metadata_of_decode hdecode)
        exact documents_of_written hinv found hmetadata (batches_refresh hchange) hanswered
    · exact .throw trivial

/-- The document has had the batches when work units are created, however many of them. -/
theorem createAll_founds (outcome : Outcome) (units : List WorkUnit) (hfounded : Founded key past) :
    (createAll campaign correlation outcome units).Ensures lasting (Founds key) (fun _ _ => True)
      (fun _ _ _ => True) past s := by
  induction units generalizing past s outcome with
  | nil => exact .pure trivial
  | cons u rest ih =>
    unfold createAll
    apply Pass.Ensures.bind
    apply Pass.Ensures.create hfounded
    · intro s₁ created _ _ _ _
      apply Pass.Ensures.bind
      apply Pass.Ensures.measure trivial
      intro s₂ _ _
      apply Pass.Ensures.bind
      apply Pass.Ensures.publish trivial
      exact fun _ _ => ih _ (((hfounded.append _).append _).append _)
    · intro past' s₁ e _ _ hquiet _
      dsimp only
      split
      · apply Pass.Ensures.bind
        apply Pass.Ensures.publish trivial
        exact fun _ _ => ih _ ((hfounded.mono hquiet.goesOn).append _)
      · exact .pure trivial

theorem admitAll_founds (hknows : Knows key campaign past) (hcuts : Cuts campaign batches past)
    (units : List WorkUnit) :
    (admitAll settings campaign correlation now units batches).Ensures lasting (Founds key)
      (fun _ _ => True) (fun action _ _ => action ≠ .awaitChange) past s := by
  unfold admitAll
  apply Pass.Ensures.bind
  apply (putDocument_founds settings hknows hcuts).mono
  intro _ past₁ s₁ hfounded
  apply Pass.Ensures.bind
  apply (createAll_founds correlation _ _ hfounded).mono
  intro ⟨outcome, failure⟩ past₂ s₂ _
  apply Pass.Ensures.bind
  apply Pass.Ensures.measure trivial
  intro s₃ _ _
  apply Pass.Ensures.bind
  apply (writeStatus_ensures settings now founds_of_isRoutine outcome (some now)).mono
  intro _ past₄ s₄ _
  cases failure with
  | none => exact .pure (action_ne_awaitChange outcome settings.requeue)
  | some e => exact .throw trivial

/-- An admission pass creates a work unit only when the document has had its batches. -/
theorem reconcile_founds :
    (reconcile settings key now).Ensures lasting (Founds key)
      (fun result _ s => result = .ok .awaitChange → IsGone key s) past s :=
  reconcile_ensures_of_admitAll settings now founds_of_isRoutine fun hknows hcuts =>
    admitAll_founds settings _ now hknows hcuts _

end
end Admission
end CampaignControl
