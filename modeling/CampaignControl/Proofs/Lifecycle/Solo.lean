import CampaignControl.Proofs.Concurrency.Lone
import CampaignControl.Proofs.Lifecycle.Outline

/-!
# A lifecycle pass alone

How a lifecycle pass ends that has the store to itself, whatever faults its requests meet
(`Lifecycle.reconcile_ensures`). It waits for a change only if its work unit is settled: it is not
stored any more, or it is to be deleted and nothing is left to clean up (`Lifecycle.IsSettled`). The
work unit that it has found is accounted for in any case, even after an error: its record is still
there and it is as live as before, or an event has been published that tells of the room it leaves
(`Lifecycle.Accounted`). And it changes no other work unit (`Lifecycle.Confined`).
-/

namespace CampaignControl

/-! ## Deletions that have been answered -/

namespace Request.Answered

variable {kind : Kind} {key : Key} {s s' : Store} {reply : Except StoreError Unit}

theorem find?_of_delete {e : StoreError}
    (h : (Request.store (.delete kind key .background)).Answered s (.error e) s')
    (hnot : e.isNotFound) : s.find? { kind, key } = none := by
  rcases h.store_cases with ⟨now, hserve⟩ | ⟨e', hrefusal, heq, -⟩
  · replace hserve : s.delete now kind key .background = (.error e, s') := hserve
    cases found : s.find? { kind, key } with
    | none => rfl
    | some o =>
      have found' : s.advance.find? { kind, key } = some o := found
      simp only [Store.delete, found'] at hserve
      split at hserve
      · cases hserve
      · split at hserve <;> cases hserve
  · cases heq
    rw [hrefusal.not_isNotFound] at hnot
    cases hnot

/-- What has been deleted and is still stored is marked. -/
theorem isDeleting_of_delete
    (h : (Request.store (.delete kind key .background)).Answered s (.ok ()) s') {o : Object}
    (found : s'.find? { kind, key } = some o) : o.metadata.isDeleting := by
  rcases h.store_cases with ⟨now, hserve⟩ | ⟨e, -, heq, -⟩
  · replace hserve : s.delete now kind key .background = (.ok (), s') := hserve
    cases hold : s.find? { kind, key } with
    | none =>
      simp only [Store.delete, Store.find?_advance, hold] at hserve
      cases hserve
    | some old =>
      by_cases hfin : old.metadata.finalizers = []
      · have hgone := Store.find?_delete now kind key .background fun o h => by
          cases hold.symm.trans h
          exact hfin
        rw [hserve] at hgone
        cases hgone.symm.trans found
      · cases hdel : old.metadata.isDeleting with
        | true =>
          simp only [Store.delete, Store.find?_advance, hold, if_neg hfin, hdel, if_true] at hserve
          cases hserve
          cases hold.symm.trans found
          exact hdel
        | false =>
          obtain ⟨s₁, hdelete, hmarked, -⟩ := Store.delete_held hold hfin hdel now .background
          cases hdelete.symm.trans hserve
          cases hmarked.symm.trans found
          rfl
  · cases heq

/-- What has finalizers survives a deletion as it is, or marked. -/
theorem kept_of_delete (h : (Request.store (.delete kind key .background)).Answered s reply s')
    (hs : s.Sound) {slot : Slot} {o : Object} (found : s.find? slot = some o)
    (hfin : o.metadata.finalizers ≠ []) :
    ∃ o', s'.find? slot = some o' ∧ (o' = o ∨ ∃ time version, o' = o.marked time version) := by
  obtain ⟨o', found', -⟩ := h.delete_cases.1.fades_of_finalizers found hfin
  refine ⟨o', found', ?_⟩
  cases (h.outcome hs).source (fun _ _ => nofun) found' with
  | same hold =>
    cases hold.symm.trans found
    exact .inl rfl
  | marked time version hold =>
    cases hold.symm.trans found
    exact .inr ⟨time, version, rfl⟩
  | created now hr => cases hr
  | revised hr => cases hr

end Request.Answered

namespace Lifecycle

/-! ## What becomes of a work unit -/

/-- No pass over the work unit at a key is needed any more. -/
def IsSettled (key : Key) (s : Store) : Prop :=
  ∀ o, s.find? (unitSlot key) = some o →
    o.metadata.isDeleting ∧ o.metadata.hasFinalizer WorkUnit.finalizer = false

/-- An event has been published that tells of room in a campaign. -/
def Announced (campaign : Key) (past : List Exchange) : Prop :=
  ∃ e ∈ published past, e.payload.freesCapacity ∧ e.campaign = campaign

/-- The record of the first work unit is still stored, as the second one. It is as live as it was,
unless something else has been announced. -/
structure Present (u₀ : WorkUnit) (past : List Exchange) (s : Store) (u : WorkUnit) : Prop where
  found : ∃ o, s.find? (unitSlot u₀.key) = some o ∧ Resource.decode o = .ok u
  key : u.key = u₀.key
  owner : u.metadata.owner = u₀.metadata.owner
  spec : u.spec = u₀.spec
  isLive : u₀.isLive → u.isLive ∨ Announced u₀.campaignKey past

/-- A work unit is still there, or what has become of it has been announced. -/
def Accounted (u₀ : WorkUnit) (past : List Exchange) (s : Store) : Prop :=
  Announced u₀.campaignKey past ∨ ∃ u, Present u₀ past s u

/-- How a pass ends with an action. -/
structure Closes (u₀ : WorkUnit) (action : Action) (past : List Exchange) (s : Store) : Prop where
  settled : action = .awaitChange → IsSettled u₀.key s
  accounted : Accounted u₀ past s

/-- How an execution has been started for a work unit, unless the work unit was gone. -/
abbrev Begun (u₀ : WorkUnit) (started : Option (WorkUnit × Execution)) (past : List Exchange)
    (s : Store) : Prop :=
  ∃ u, Present u₀ past s u ∧ u.metadata.hasFinalizer WorkUnit.finalizer ∧
    (started = none → IsSettled u₀.key s)

/-- The requests of a pass that leaves all work units alone but the one at its key. -/
def Confined (key : Key) : Request → Prop
  | .store (.create kind _) => kind = .execution
  | .store (.update kind object) => kind = .workUnit ∧ object.key = key
  | .store (.delete kind k propagation) =>
    (kind = .execution ∨ kind = .workUnit ∧ k = key) ∧ propagation = .background
  | .store (.get ..) | .store (.list ..) | .discover _ | .correlate | .publish _ | .measure _ =>
    True

/-- A pass that has the store to itself, leaves other work units alone and accounts for its own,
whether it fails or not. -/
abbrev Accounts {γ : Type} (u₀ : WorkUnit) (post : γ → List Exchange → Store → Prop) (p : Pass γ)
    (past : List Exchange) (s : Store) : Prop :=
  p.Ensures .none (fun _ => Confined u₀.key) (Accounted u₀) post past s

variable {key : Key} {u₀ u changed moved : WorkUnit} {past past' : List Exchange} {s s' : Store}
  {o : Object}

theorem isSettled_of_none (h : s.find? (unitSlot key) = none) : IsSettled key s := by
  intro o found
  cases h.symm.trans found

/-- Without the finalizer there is nothing left to do for a work unit that is to be deleted. -/
theorem isSettled_of_release (hchange : release u = (changed, some ()))
    (hdel : o.metadata.isDeleting)
    (hdels : (withUnit s key o changed).Deletions s') : IsSettled key s' := by
  intro o' found
  obtain ⟨revised, hrevised, hfades⟩ := hdels.fades_of_find? found
  obtain ⟨revised', hrevised', hpersists⟩ := hdels.persists found
  rw [Store.find?_withRevised, if_pos rfl] at hrevised hrevised'
  cases hrevised
  cases hrevised'
  constructor
  · obtain ⟨time, htime⟩ := Option.isSome_iff_exists.1 hdel
    have := hpersists.deletedAt time htime
    rw [Metadata.isDeleting, this]
    rfl
  · rw [hfades.hasFinalizer]
    cases eq_of_release hchange
    show (u.metadata.removeFinalizer WorkUnit.finalizer).hasFinalizer WorkUnit.finalizer = false
    simp [Metadata.hasFinalizer, Metadata.removeFinalizer]

theorem Announced.mono (h : Announced key past) (hsub : published past ⊆ published past') :
    Announced key past' := by
  obtain ⟨e, he, hfrees⟩ := h
  exact ⟨e, hsub he, hfrees⟩

theorem campaignKey_eq (hkey : u.key = u₀.key) (hspec : u.spec = u₀.spec) :
    u.campaignKey = u₀.campaignKey :=
  congrArg₂ Key.mk (congrArg Key.space hkey) (congrArg WorkUnit.Spec.campaign hspec)

namespace Present

theorem accounted (h : Present u₀ past s u) : Accounted u₀ past s := .inr ⟨u, h⟩

theorem mono (h : Present u₀ past s u) (hsub : published past ⊆ published past') :
    Present u₀ past' s u :=
  { h with isLive := fun hlive => (h.isLive hlive).imp_right fun ha => ha.mono hsub }

theorem quietly (h : Present u₀ past s u) (hquiet : Quietly past past') :
    Present u₀ past' s u := h.mono hquiet.subset_published

theorem append (h : Present u₀ past s u) (e : Exchange) : Present u₀ (past ++ [e]) s u :=
  h.mono (subset_published past e)

/-- The work unit that is found is the one that is present. -/
theorem eq_of_found (h : Present u₀ past s u) (found : s.find? (unitSlot u₀.key) = some o)
    (hdecode : Resource.decode o = .ok changed) : changed = u := by
  obtain ⟨o', found', hdecode'⟩ := h.found
  cases found.symm.trans found'
  cases hdecode.symm.trans hdecode'
  rfl

theorem metadata_eq (h : Present u₀ past s u) (found : s.find? (unitSlot u₀.key) = some o) :
    u.metadata = o.metadata := by
  obtain ⟨o', found', hdecode⟩ := h.found
  cases found.symm.trans found'
  exact Resource.metadata_of_decode hdecode

/-- What is left of a work unit with finalizers after something has been deleted. -/
theorem kept {kind : Kind} {k : Key} {reply : Except StoreError Unit} (h : Present u₀ past s u)
    (hanswered : (Request.store (.delete kind k .background)).Answered s reply s') (hs : s.Sound)
    (hfin : u.metadata.hasFinalizer WorkUnit.finalizer) :
    ∃ u', Present u₀ past s' u' ∧ (u.metadata.isDeleting → u'.metadata.isDeleting) ∧
      u'.metadata.hasFinalizer WorkUnit.finalizer := by
  obtain ⟨o, found, hdecode⟩ := h.found
  have hmetadata := Resource.metadata_of_decode hdecode
  change u.metadata = o.metadata at hmetadata
  have hheld : o.metadata.finalizers ≠ [] :=
    Metadata.ne_nil_of_hasFinalizer (hmetadata ▸ hfin)
  obtain ⟨o', found', hcases⟩ := hanswered.kept_of_delete hs found hheld
  have hfades : o.Fades o' ∧ o'.metadata.owner = o.metadata.owner ∧
      (o.metadata.isDeleting → o'.metadata.isDeleting) := by
    rcases hcases with rfl | ⟨time, version, rfl⟩
    · exact ⟨.refl _, rfl, id⟩
    · exact ⟨Store.marked_fades o time version, rfl, fun _ => rfl⟩
  refine ⟨{ u with metadata := o'.metadata }, ⟨⟨o', found', ?_⟩, ?_, ?_, h.spec, h.isLive⟩, ?_, ?_⟩
  · rw [Resource.decode_eq_map hfades.1.body, hdecode]
    rfl
  · exact hfades.1.key.trans ((congrArg Metadata.key hmetadata.symm).trans h.key)
  · exact hfades.2.1.trans ((congrArg Metadata.owner hmetadata.symm).trans h.owner)
  · exact fun hdel => hfades.2.2 (hmetadata ▸ hdel)
  · exact (hfades.1.hasFinalizer _).trans (hmetadata ▸ hfin)

/-- A work unit that has been written back is present. -/
theorem written (h : Present u₀ past s u) (hretains : Retains u changed)
    (hspec : changed.spec = u.spec)
    (hlive : u₀.isLive → changed.isLive ∨ Announced u₀.campaignKey past) :
    Present u₀ past (withUnit s u₀.key o changed)
      (Resource.setMetadata (s.revised o (Resource.encode changed)).metadata changed) where
  found := ⟨_, (Store.find?_withRevised ..).trans (if_pos rfl), Resource.decode_stored _ _⟩
  key := hretains.key.trans h.key
  owner := hretains.owner.trans h.owner
  spec := hspec.trans h.spec
  isLive := hlive

/-- A work unit that has been given the finalizer is present with it. -/
theorem guarded (h : Present u₀ past s u) (hchange : guard u = (changed, some ())) :
    changed.metadata.hasFinalizer WorkUnit.finalizer ∧
      Present u₀ past (withUnit s u₀.key o changed)
        (Resource.setMetadata (s.revised o (Resource.encode changed)).metadata changed) := by
  have hretains := retains_guard hchange
  cases eq_of_guard hchange
  exact ⟨Metadata.hasFinalizer_addFinalizer, h.written hretains rfl h.isLive⟩

end Present

theorem Accounted.mono (h : Accounted u₀ past s) (hsub : published past ⊆ published past') :
    Accounted u₀ past' s :=
  h.imp (fun ha => ha.mono hsub) fun ⟨u, hu⟩ => ⟨u, hu.mono hsub⟩

/-! ## The parts of a pass -/

section
variable (settings : Settings) (correlation : Uid) (now : Instant)

/-- A work unit that is written back is the one at the key of the pass. -/
theorem confined_update (hs : s.Sound) (found : s.find? (unitSlot key) = some o)
    (hdecode : Resource.decode o = .ok u) (hretains : Retains u changed) :
    Confined key (.store (.update .workUnit (Resource.encode changed))) :=
  ⟨rfl, hretains.key.trans (hs.key_of_decode found hdecode)⟩

theorem finalize_ensures (h : Present u₀ past s u) (hdel : u.metadata.isDeleting) :
    Accounts u₀ (fun _ => Closes u₀ .awaitChange) (finalize settings correlation u) past s := by
  have hpublish : ∀ {past s}, IsSettled u₀.key s →
      Accounts u₀ (fun _ => Closes u₀ .awaitChange) (publish correlation u .finalized) past s := by
    intro past s hsettled
    apply Pass.Ensures.publish trivial
    rintro s₁ rfl -
    exact ⟨fun _ => hsettled, .inl ⟨_, mem_published_append .., rfl, campaignKey_eq h.key h.spec⟩⟩
  have hrest : ∀ {past s u'}, Present u₀ past s u' → u'.metadata.isDeleting →
      Accounts u₀ (fun _ => Closes u₀ .awaitChange) (do
        let _ ← modifyUnit settings u.key release
        publish correlation u .finalized) past s := by
    intro past s u' h' hdel'
    rw [h.key]
    apply Pass.Ensures.bind
    apply Pass.Ensures.modify release_keepsPlace
    · exact fun _ => trivial
    · intro past' s₁ object current changed note _ hinv found hdecode hchange
      exact confined_update hinv found hdecode (retains_release hchange)
    · rintro past' s₁ rfl hquiet
      exact (h'.quietly hquiet).accounted
    · exact fun _ _ _ hnone => hpublish (isSettled_of_none hnone)
    · rintro past' s₁ object current same rfl - - found hdecode hchange
      apply hpublish
      intro o found'
      cases found.symm.trans found'
      rw [← h'.metadata_eq found]
      refine ⟨hdel', ?_⟩
      cases h'.eq_of_found found hdecode
      unfold release at hchange
      split at hchange
      · cases hchange
      · next hnot => exact Bool.not_eq_true _ ▸ hnot
    · rintro past' s₁ s₂ object current changed note rfl - - - found hdecode hchange - hdels -
      apply hpublish
      exact isSettled_of_release hchange (h'.metadata_eq found ▸ hdel') hdels
  unfold finalize
  split
  · next hfin =>
    apply Pass.Ensures.bind
    apply Pass.Ensures.delete ⟨.inl rfl, rfl⟩
    rintro s₁ s₂ reply rfl hinv - hanswered
    obtain ⟨u', h', hdel', -⟩ := h.kept hanswered hinv hfin
    cases reply with
    | ok => exact hrest (h'.append _) (hdel' hdel)
    | error e =>
      dsimp only
      split
      · exact hrest (h'.append _) (hdel' hdel)
      · exact .bind (.throw (h'.append _).accounted)
  · next hfree =>
    refine .pure ⟨fun _ o found => ?_, h.accounted⟩
    rw [← h.metadata_eq found]
    exact ⟨hdel, Bool.not_eq_true _ ▸ hfree⟩

theorem deleteRecord_ensures (reason : Event.Payload) (h : Present u₀ past s u)
    (hfin : u.metadata.hasFinalizer WorkUnit.finalizer) :
    Accounts u₀ (fun _ => Closes u₀ .awaitChange) (deleteRecord settings correlation u reason)
      past s := by
  unfold deleteRecord
  apply Pass.Ensures.bind
  rw [h.key]
  apply Pass.Ensures.delete ⟨.inr ⟨rfl, rfl⟩, rfl⟩
  rintro s₁ s₂ reply rfl hinv - hanswered
  obtain ⟨u', h', -, hfin'⟩ := h.kept hanswered hinv hfin
  cases reply with
  | error e =>
    dsimp only
    split
    · next hnot =>
      obtain ⟨o, found, -⟩ := h.found
      cases (hanswered.find?_of_delete hnot).symm.trans found
    · exact .throw (h'.append _).accounted
  | ok =>
    apply Pass.Ensures.bind
    apply Pass.Ensures.publish trivial
    rintro s₃ rfl -
    apply Pass.Ensures.bind
    apply Pass.Ensures.find? trivial
    · rintro past' s₃ rfl hquiet
      exact (((h'.append _).append _).quietly hquiet).accounted
    · rintro s₃ object current rfl - found hdecode
      cases h'.eq_of_found found hdecode
      have hdel : u'.metadata.isDeleting := by
        rw [h'.metadata_eq found]
        exact hanswered.isDeleting_of_delete found
      dsimp only
      rw [if_pos hdel]
      exact finalize_ensures settings correlation (((h'.append _).append _).append _) hdel
    · rintro past' s₃ rfl - - hnone
      obtain ⟨o, found, -⟩ := h'.found
      cases hnone.symm.trans found

theorem retainOrClean_ensures (h : Present u₀ past s u)
    (hfin : u.metadata.hasFinalizer WorkUnit.finalizer) :
    Accounts u₀ (Closes u₀) (retainOrClean settings correlation now u) past s := by
  unfold retainOrClean
  split
  · split
    · apply Pass.Ensures.bind
      apply (deleteRecord_ensures settings correlation _ h hfin).mono
      exact fun _ past' s' hend => .pure hend
    · exact .pure ⟨nofun, h.accounted⟩
  · exact .pure ⟨nofun, h.accounted⟩

theorem announce_ensures (old : WorkUnit.Phase)
    {post : Unit → List Exchange → Store → Prop} {fail : List Exchange → Store → Prop}
    (hpost : ∀ {past' : List Exchange} {e : Event}, published past ⊆ published past' →
      e ∈ published past' → e.payload = .phaseChanged old u.status.phase →
      e.campaign = u.campaignKey → post () past' s) :
    (announce correlation u old).Ensures .none (fun _ => Confined key) fail post past s := by
  have hpublish : ∀ {past₁ : List Exchange}, published past ⊆ published past₁ →
      (publish correlation u (.phaseChanged old u.status.phase)).Ensures .none
        (fun _ => Confined key) fail post past₁ s := by
    intro past₁ hsub
    apply Pass.Ensures.publish trivial
    rintro s₁ rfl -
    exact hpost (List.Subset.trans hsub (subset_published ..)) (mem_published_append ..) rfl rfl
  unfold announce
  dsimp only
  split
  · apply Pass.Ensures.bind
    apply Pass.Ensures.measure trivial
    rintro s₁ rfl -
    exact hpublish (subset_published ..)
  · exact hpublish (List.Subset.refl _)

theorem takeOver_ensures (execution : Execution) (h : Present u₀ past s u)
    (hfin : u.metadata.hasFinalizer WorkUnit.finalizer) :
    Accounts u₀ (Closes u₀) (takeOver settings correlation now u₀.key execution) past s := by
  have hgoOn : ∀ {past : List Exchange} {s : Store} {u : WorkUnit}, Present u₀ past s u →
      u.metadata.hasFinalizer WorkUnit.finalizer →
      Accounts u₀ (Closes u₀) (if u.status.phase.isTerminal then
          retainOrClean settings correlation now u
        else return .afterSeconds settings.requeue.whileActive) past s := by
    intro past s u h hfin
    split
    · exact retainOrClean_ensures settings correlation now h hfin
    · exact .pure ⟨nofun, h.accounted⟩
  unfold takeOver
  apply Pass.Ensures.bind
  apply Pass.Ensures.modify (follow_keepsPlace ..)
  · exact fun _ => trivial
  · intro past' s₁ object current changed note _ hinv found hdecode hchange
    exact confined_update hinv found hdecode (retains_advance? (advance?_of_follow hchange))
  · rintro past' s₁ rfl hquiet
    exact (h.quietly hquiet).accounted
  · rintro past' s₁ rfl - hquiet hnone
    exact .pure ⟨fun _ => isSettled_of_none hnone, (h.quietly hquiet).accounted⟩
  · rintro past' s₁ object current same rfl - hquiet found hdecode hchange
    cases eq_of_follow_none hchange
    cases h.eq_of_found found hdecode
    exact .bind (.pure (hgoOn ((h.quietly hquiet).append _) hfin))
  · rintro past' s₁ s₂ object current moved old rfl hinv - hquiet found hdecode hchange - - hkept
    cases h.eq_of_found found hdecode
    have hmoved := advance?_of_follow hchange
    have hadvance := WorkUnit.advance_of_advance? hmoved
    have hfin' : moved.metadata.hasFinalizer WorkUnit.finalizer := by
      rw [hadvance.metadata]
      exact hfin
    rw [hkept (Metadata.ne_nil_of_hasFinalizer hfin')]
    apply Pass.Ensures.bind
    apply announce_ensures
    intro past₂ e hsub he hpayload hcampaign
    have h' := h.mono (List.Subset.trans hquiet.subset_published
      (List.Subset.trans (subset_published ..) hsub))
    refine hgoOn (h'.written (retains_advance? hmoved) hadvance.spec fun _ => ?_) hfin'
    -- the work unit is live, or its end has just been announced
    cases hend : moved.status.phase.isTerminal with
    | false => exact .inl (by rw [WorkUnit.isLive, hend]; rfl)
    | true =>
      refine .inr ⟨e, he, ?_, hcampaign.trans ?_⟩
      · rw [hpayload]
        exact hend
      · exact campaignKey_eq ((retains_advance? hmoved).key.trans h.key)
          (hadvance.spec.trans h.spec)

theorem record_ensures {execution : Execution}
    {rest : Option (WorkUnit × Option Unit) → Pass (Option (WorkUnit × Execution))}
    (h : Present u₀ past s u) (hfin : u.metadata.hasFinalizer WorkUnit.finalizer)
    (hnone : rest none = pure none)
    (hsome : ∀ updated note, rest (some (updated, note)) = do
      publish correlation updated (.executionCreated execution.key u.spec.batchIndex)
      return some (updated, execution)) :
    Accounts u₀ (Begun u₀)
      (modifyUnit settings u.key (recordExecution now execution.key) >>= rest) past s := by
  have hpublish : ∀ {past s u'} (updated : WorkUnit) (note : Option Unit),
      Present u₀ past s u' → u'.metadata.hasFinalizer WorkUnit.finalizer →
      Accounts u₀ (Begun u₀) (rest (some (updated, note))) past s := by
    intro past s u' updated note h' hfin'
    rw [hsome]
    apply Pass.Ensures.bind
    apply Pass.Ensures.publish trivial
    rintro s₁ rfl -
    exact .pure ⟨u', h'.append _, hfin', nofun⟩
  rw [h.key]
  apply Pass.Ensures.bind
  apply Pass.Ensures.modify (recordExecution_keepsPlace ..)
  · exact fun _ => trivial
  · intro past' s₁ object current changed note _ hinv found hdecode hchange
    exact confined_update hinv found hdecode (retains_recordExecution hchange)
  · rintro past' s₁ rfl hquiet
    exact (h.quietly hquiet).accounted
  · rintro past' s₁ rfl - hquiet hgone
    rw [hnone]
    exact .pure ⟨u, h.quietly hquiet, hfin, fun _ => isSettled_of_none hgone⟩
  · rintro past' s₁ object current same rfl - hquiet found hdecode hchange
    exact hpublish _ _ ((h.quietly hquiet).append _) hfin
  · rintro past' s₁ s₂ object current changed note rfl hinv - hquiet found hdecode hchange - - hkept
    cases h.eq_of_found found hdecode
    have hrecords := WorkUnit.records_of_recordExecution hchange
    have hfin' : changed.metadata.hasFinalizer WorkUnit.finalizer := by
      rw [hrecords.metadata]
      exact hfin
    have hlive : changed.isLive = u.isLive := by
      obtain ⟨condition, -, hstatus⟩ := hrecords.status
      rw [WorkUnit.isLive, hstatus]
      rfl
    rw [hkept (Metadata.ne_nil_of_hasFinalizer hfin')]
    have h' := (h.quietly hquiet).append (.write .workUnit (Resource.encode changed)
      (s₁.revised object (Resource.encode changed)) s₁ (withUnit s₁ u₀.key object changed))
    exact hpublish _ _ (h'.written (retains_recordExecution hchange) hrecords.spec
      (hlive ▸ h'.isLive)) hfin'

theorem startExecution_ensures (h : Present u₀ past s u)
    (hfin : u.metadata.hasFinalizer WorkUnit.finalizer) :
    Accounts u₀ (Begun u₀) (startExecution settings correlation now u) past s := by
  unfold startExecution
  apply Pass.Ensures.bind
  apply Pass.Ensures.create rfl
  · rintro s₁ created rfl - - -
    -- an execution takes no place from a work unit
    have h' : Present u₀ past (s₁.withNew created (Resource.slot u.toExecution)
        (Resource.encode u.toExecution)) u := by
      obtain ⟨o, found, hdecode⟩ := h.found
      refine { h with found := ⟨o, ?_, hdecode⟩ }
      rw [Store.find?_withNew, if_neg, found]
      intro heq
      cases congrArg Slot.kind heq
    exact .bind (.pure (record_ensures settings correlation now (h'.append _) hfin rfl
      fun _ _ => rfl))
  · rintro past' s₁ e rfl - hquiet -
    dsimp only
    split
    · apply Pass.Ensures.bind
      apply Pass.Ensures.get trivial
      · rintro past' s₁ rfl hquiet'
        exact ((h.quietly hquiet).quietly hquiet').accounted
      · rintro s₁ object execution rfl - - -
        exact record_ensures settings correlation now ((h.quietly hquiet).append _) hfin rfl
          fun _ _ => rfl
    · exact .bind (.throw (h.quietly hquiet).accounted)

theorem passOver_ensures (h : Present u₀ past s u)
    (hfin : u.metadata.hasFinalizer WorkUnit.finalizer) :
    Accounts u₀ (Closes u₀) (passOver settings correlation now u₀.key u) past s := by
  unfold passOver
  split
  · exact retainOrClean_ensures settings correlation now h hfin
  · split
    · apply Pass.Ensures.bind
      apply (startExecution_ensures settings correlation now h hfin).mono
      rintro started past' s' ⟨u', h', hfin', hnone⟩
      cases started with
      | none => exact .pure ⟨fun _ => hnone rfl, h'.accounted⟩
      | some started => exact takeOver_ensures settings correlation now started.2 h' hfin'
    · apply Pass.Ensures.bind
      apply Pass.Ensures.find? trivial
      · rintro past' s₁ rfl hquiet
        exact (h.quietly hquiet).accounted
      · rintro s₁ object execution rfl - - -
        exact takeOver_ensures settings correlation now execution (h.append _) hfin
      · rintro past' s₁ rfl - hquiet -
        apply Pass.Ensures.bind
        apply (deleteRecord_ensures settings correlation _ (h.quietly hquiet) hfin).mono
        exact fun _ past' s' hend => .pure hend

/-- Whatever work unit a pass has found is accounted for. -/
def AccountedSince (s₀ : Store) (key : Key) (past : List Exchange) (s : Store) : Prop :=
  ∀ o u₀, s₀.find? (unitSlot key) = some o → Resource.decode o = .ok u₀ → Accounted u₀ past s

theorem accountedSince (found : s.find? (unitSlot key) = some o)
    (hdecode : Resource.decode o = .ok u₀) (h : Accounted u₀ past s') :
    AccountedSince s key past s' := by
  intro o' u' found' hdecode'
  cases found.symm.trans found'
  cases hdecode.symm.trans hdecode'
  exact h

theorem ensures_since {p : Pass Action} (found : s.find? (unitSlot u₀.key) = some o)
    (hdecode : Resource.decode o = .ok u₀)
    (h : Accounts u₀ (Closes u₀) p past s') :
    p.Ensures .none (fun _ => Confined u₀.key) (AccountedSince s u₀.key)
      (fun action past s' => (action = .awaitChange → IsSettled u₀.key s') ∧
        AccountedSince s u₀.key past s') past s' :=
  h.imp (fun _ _ hend => accountedSince found hdecode hend)
    fun _ _ _ hend => ⟨hend.settled, accountedSince found hdecode hend.accounted⟩

theorem pass_ensures (hinv : s.Sound) :
    (pass settings key now).Ensures .none (fun _ => Confined key) (AccountedSince s key)
      (fun action past s' => (action = .awaitChange → IsSettled key s') ∧
        AccountedSince s key past s') [] s := by
  have hkey : ∀ {o u₀}, s.find? (unitSlot key) = some o →
      (Resource.decode o : Except StoreError WorkUnit) = .ok u₀ → u₀.key = key :=
    fun found hdecode => hinv.key_of_decode found hdecode
  have hpresent : ∀ {o u₀ past}, s.find? (unitSlot key) = some o → Resource.decode o = .ok u₀ →
      Present u₀ past s u₀ :=
    fun found hdecode => ⟨⟨_, hkey found hdecode ▸ found, hdecode⟩, rfl, rfl, rfl, .inl⟩
  unfold pass
  apply Pass.Ensures.bind
  apply Pass.Ensures.find? trivial
  · rintro past' s₁ rfl - o u₀ found hdecode
    exact (hpresent found hdecode).accounted
  · rintro s₁ object u₀ rfl - found hdecode
    have h : Present u₀ [.read (unitSlot key) object s₁] s₁ u₀ := hpresent found hdecode
    cases hkey found hdecode
    apply ensures_since found hdecode
    apply Pass.Ensures.bind
    apply Pass.Ensures.correlate trivial
    rintro s₂ correlation rfl -
    replace h := h.append
      { request := .correlate, reply := correlation, before := s₂, after := s₂ }
    split
    · next hdel =>
      apply Pass.Ensures.bind
      apply (finalize_ensures settings correlation h hdel).mono
      exact fun _ past' s' hend => .pure hend
    · split
      · next hfin => exact passOver_ensures settings correlation now h hfin
      · apply Pass.Ensures.bind
        apply Pass.Ensures.modify guard_keepsPlace
        · exact fun _ => trivial
        · intro past' s₃ object current changed note _ hinv₃ found hdecode hchange
          exact confined_update hinv₃ found hdecode (retains_guard hchange)
        · rintro past' s₃ rfl hquiet
          exact (h.quietly hquiet).accounted
        · rintro past' s₃ rfl - hquiet hnone
          exact .pure ⟨fun _ => isSettled_of_none hnone, (h.quietly hquiet).accounted⟩
        · rintro past' s₃ object current same rfl - hquiet found hdecode hchange
          obtain ⟨rfl, hfin⟩ := eq_of_guard_none hchange
          cases h.eq_of_found found hdecode
          exact passOver_ensures settings correlation now ((h.quietly hquiet).append _) hfin
        · rintro past' s₃ s₄ object current changed note rfl - - hquiet found hdecode hchange - -
            hkept
          cases h.eq_of_found found hdecode
          obtain ⟨hfin, hguarded⟩ := ((h.quietly hquiet).append _).guarded hchange
          rw [hkept (Metadata.ne_nil_of_hasFinalizer hfin)]
          exact passOver_ensures settings correlation now hguarded hfin
  · rintro past' s₁ rfl - - hnone
    refine .pure ⟨fun _ => isSettled_of_none hnone, fun o u₀ found => ?_⟩
    cases hnone.symm.trans found

/-- **How a lifecycle pass ends that is alone**: it waits for a change only if its work unit is
settled, and the work unit that was there before is accounted for. -/
theorem reconcile_ensures (hinv : s.Sound) :
    (reconcile settings key now).Ensures .none (fun _ => Confined key)
      (fun result past s' => (result = .ok .awaitChange → IsSettled key s') ∧
        AccountedSince s key past s') [] s := by
  apply Pass.Ensures.counted (pass_ensures settings now hinv)
  · exact fun _ => rfl
  · exact fun _ => rfl
  · exact fun _ _ => trivial
  · exact fun action _ _ hend => ⟨fun h => hend.1 (Except.ok.inj h), hend.2⟩
  · rintro e past s' _ rfl hsince
    exact ⟨nofun, fun o u₀ found hdecode =>
      (hsince o u₀ found hdecode).mono (subset_published ..)⟩

end
end Lifecycle
end CampaignControl
