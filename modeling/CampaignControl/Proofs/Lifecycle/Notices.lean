import CampaignControl.Proofs.Concurrency.Ensures
import CampaignControl.Proofs.Lifecycle.Phases

/-!
# What a lifecycle pass makes known

Which events a lifecycle pass publishes, and what it has been answered before that
(`Lifecycle.Notice`), beside anybody else and whatever faults its requests meet
(`Lifecycle.reconcile_tells`). When a pass has changed the phase of a work unit it owes an event
about the change (`Lifecycle.owed`). It makes no further request to the store before it has
published this event, publishes such an event only then, and owes none in the end.
-/

namespace CampaignControl

/-- The change of a phase that an event tells of. -/
def Event.Payload.move? : Event.Payload → Option (WorkUnit.Phase × WorkUnit.Phase)
  | phaseChanged old new => some (old, new)
  | admitted .. | adopted _ | executionCreated .. | orphanRemoved | retentionExpired | finalized
  | drainRequested | admissionRejected _ => none

namespace Exchange

/-- The change of a phase that has been made known. -/
def told? (e : Exchange) : Option (WorkUnit.Phase × WorkUnit.Phase) :=
  e.request.event?.bind (·.payload.move?)

/-- How the work unit with an identity has changed its phase. -/
def moved? (uid : Uid) (e : Exchange) : Option (WorkUnit.Phase × WorkUnit.Phase) :=
  Store.moved? uid e.before e.after

theorem IsIdle.moved? {e : Exchange} (h : e.IsIdle) (uid : Uid) : e.moved? uid = none := by
  unfold Exchange.moved?
  rw [show e.after = e.before from h]
  exact Store.moved?_self ..

end Exchange

namespace Lifecycle

variable {key : Key} {uid : Uid} {past past' : List Exchange} {e : Exchange} {s s' : Store}
  {u : WorkUnit} {old new : WorkUnit.Phase}

/-! ## What is owed -/

/-- The change of the phase of an incarnation that has been made, but not been made known. -/
def owed (uid : Uid) (past : List Exchange) : Option (WorkUnit.Phase × WorkUnit.Phase) :=
  past.foldl (fun owed e => if e.told?.isSome then none else e.moved? uid <|> owed) none

theorem owed_append (uid : Uid) (past : List Exchange) (e : Exchange) :
    owed uid (past ++ [e]) = if e.told?.isSome then none else e.moved? uid <|> owed uid past := by
  simp [owed]

/-- Nothing is owed. -/
def Clear (past : List Exchange) : Prop := ∀ uid, owed uid past = none

/-- One change is owed, and it is of the work unit that has been met last at a key. -/
def Owes (key : Key) (old new : WorkUnit.Phase) (past : List Exchange) : Prop :=
  ∃ uid, incarnation? (unitSlot key) past = some uid ∧ owed uid past = some (old, new) ∧
    ∀ uid', uid' ≠ uid → owed uid' past = none

namespace Clear

theorem nil : Clear [] := fun _ => rfl

theorem append (h : Clear past) (he : ∀ uid, e.moved? uid = none) : Clear (past ++ [e]) := by
  intro uid
  rw [owed_append, he uid, h uid]
  split <;> rfl

theorem quietly (h : Clear past) (hquiet : Quietly past past') : Clear past' := by
  obtain ⟨new, rfl, hnew⟩ := hquiet
  induction new generalizing past with
  | nil => rwa [List.append_nil]
  | cons e rest ih =>
    obtain ⟨he, hrest⟩ := List.forall_mem_cons.1 hnew
    rw [List.append_cons]
    exact ih (h.append he.isIdle.moved?) hrest

theorem publication (h : Clear past) {event : Event} :
    Clear (past ++ [.publication event s]) := h.append fun uid => Store.moved?_self uid s

theorem read (h : Clear past) {slot : Slot} {object : Object} :
    Clear (past ++ [.read slot object s]) := h.append fun uid => Store.moved?_self uid s

theorem keeps (h : Clear past) (hs : s.Reached) (hs' : s'.Reached) (hfollows : s.Follows s')
    (hkeeps : s.KeepsPhases s') {r : Request} {reply : r.Reply} :
    Clear (past ++ [{ request := r, reply, before := s, after := s' }]) :=
  h.append fun uid => hkeeps.moved? hs.intact.toSound hs'.intact.toSound hfollows uid

/-- No phase is changed where no work unit is replaced. -/
theorem answered (h : Clear past) (hs : s.Reached) (hs' : s'.Reached) {r : StoreRequest}
    {reply : r.Reply} (hanswered : (Request.store r).Answered s reply s')
    (hr : ∀ object, r ≠ .update .workUnit object) :
    Clear (past ++ [{ request := .store r, reply, before := s, after := s' }]) := by
  refine h.keeps hs hs' hanswered.edits.follows ?_
  exact (hanswered.outcome hs.intact.toSound).keepsPhases fun object _ heq => absurd heq (hr object)

end Clear

namespace Owes

theorem measurement (h : Owes key old new past) (m : Measurement) (s : Store) :
    Owes key old new (past ++ [.measurement m s]) := by
  obtain ⟨uid, hinc, howed, hother⟩ := h
  have hsame : ∀ uid, owed uid (past ++ [.measurement m s]) = owed uid past := by
    intro uid
    rw [owed_append]
    show (Store.moved? uid s s <|> owed uid past) = _
    rw [Store.moved?_self]
    rfl
  refine ⟨uid, ?_, (hsame uid).trans howed, fun uid' hne => (hsame uid').trans (hother uid' hne)⟩
  rw [incarnation?_append_none rfl, hinc]

/-- With the publication of a change of a phase nothing is owed. -/
theorem clear {event : Event} (hevent : event.payload.move?.isSome) :
    Clear (past ++ [.publication event s]) := by
  intro uid
  rw [owed_append]
  exact if_pos hevent

end Owes

/-! ## What is made known -/

/-- A work unit for a batch was stored at a key at an exchange. -/
def Indexed (key : Key) (index : Nat) (past : List Exchange) : Prop :=
  ∃ e ∈ past, ∃ o, ∃ u : WorkUnit, e.before.find? (unitSlot key) = some o ∧
    Resource.decode o = .ok u ∧ u.spec.batchIndex = index

theorem Indexed.mono {index : Nat} (h : Indexed key index past) (hsub : past ⊆ past') :
    Indexed key index past' := by
  obtain ⟨e, he, hmet⟩ := h
  exact ⟨e, hsub he, hmet⟩

/-- What a lifecycle pass over the work unit at a key makes known after what it has been
answered. -/
def Notice (key : Key) (past : List Exchange) : Event.Payload → Prop
  | .phaseChanged old new => Owes key old new past
  | .executionCreated execution index => execution = key ∧ Indexed key index past
  | .orphanRemoved | .retentionExpired | .finalized => True
  | .admitted .. | .adopted _ | .drainRequested | .admissionRejected _ => False

/-- What a pass requests. Nothing is owed when it turns to the store, and what it writes back is the
work unit at the key, in a phase that may come next. -/
def Tells (key : Key) (past : List Exchange) : Request → Prop
  | .publish e => e.entity = key ∧ Notice key past e.payload
  | .store (.update kind object) => Clear past ∧ kind = .workUnit ∧
    ∃ s o, ∃ current changed : WorkUnit, .read (unitSlot key) o s ∈ past ∧
      Resource.decode o = .ok current ∧ object = Resource.encode changed ∧
      Retains current changed ∧ current.status.phase.canMoveTo changed.status.phase
  | .store (.create kind _) => Clear past ∧ kind ≠ .workUnit
  | .store (.get ..) | .store (.list ..) | .store (.delete ..) => Clear past
  | .discover _ | .correlate | .measure _ => True

/-- Anybody else, who does anything to the store. -/
abbrev anybody : Others := .any Store.Reached fun h => h.intact.toSound

/-- A pass tells what it may, and owes nothing in the end, whether it fails or not. -/
abbrev PaysUp {γ : Type} (key : Key) (p : Pass γ) (past : List Exchange) (s : Store) : Prop :=
  p.Ensures anybody (Tells key) (fun past _ => Clear past) (fun _ past _ => Clear past) past s

/-! ## The parts of a pass -/

section
variable (settings : Settings) (correlation : Uid) (now : Instant)

theorem tells_update {object : Object} {current changed : WorkUnit} (hclear : Clear past)
    (hdecode : Resource.decode object = .ok current) (hretains : Retains current changed)
    (hcan : current.status.phase.canMoveTo changed.status.phase) :
    Tells key (past ++ [.read (unitSlot key) object s])
      (.store (.update .workUnit (Resource.encode changed))) :=
  ⟨hclear.read, rfl, s, object, current, changed, List.mem_append_right _ List.mem_cons_self,
    hdecode, rfl, hretains, hcan⟩

/-- A change of a work unit that keeps its phase. -/
theorem modifyUnit_tells {change : WorkUnit → WorkUnit × Option Unit}
    {post : Option (WorkUnit × Option Unit) → List Exchange → Store → Prop}
    (hretains : ∀ {u changed}, change u = (changed, some ()) →
      Retains u changed ∧ changed.spec = u.spec ∧ changed.status.phase = u.status.phase)
    (hsame : ∀ {u same}, change u = (same, none) → same = u) (hclear : Clear past)
    (hnone : ∀ {past' s}, past ⊆ past' → Clear past' → post none past' s)
    (hsome : ∀ {past' s} {u : WorkUnit} {note : Option Unit}, past ⊆ past' → Clear past' →
      u.key = key → Indexed key u.spec.batchIndex past' → post (some (u, note)) past' s) :
    (modifyUnit settings key change).Ensures anybody (Tells key) (fun past _ => Clear past) post
      past s := by
  have hsub : ∀ {past'} (e : Exchange), Quietly past past' → past ⊆ past' ++ [e] :=
    fun e hquiet => List.Subset.trans hquiet.subset (List.subset_append_left ..)
  unfold modifyUnit
  apply Pass.Ensures.modify (keepsPlace_of_retains fun h => (hretains h).1)
  · exact fun hquiet => hclear.quietly hquiet
  · intro past' s₁ object current changed note hquiet hinv found hdecode hchange
    obtain ⟨hkept, -, hphase⟩ := hretains hchange
    refine tells_update (hclear.quietly hquiet) hdecode hkept ?_
    rw [hphase]
    exact WorkUnit.Phase.canMoveTo_refl _
  · exact fun _ hquiet => hclear.quietly hquiet
  · exact fun _ _ hquiet _ => hnone hquiet.subset (hclear.quietly hquiet)
  · intro past' s₁ object current same _ hinv hquiet found hdecode hchange
    cases hsame hchange
    have hkey : current.key = key := hinv.intact.toSound.key_of_decode found hdecode
    exact hsome (hsub _ hquiet) ((hclear.quietly hquiet).read) hkey
      ⟨_, List.mem_append_right _ List.mem_cons_self, object, current, found, hdecode, rfl⟩
  · intro past' s₁ s₂ object current changed note _ hinv hinv₂ hquiet found hdecode hchange
      hanswered _ _
    obtain ⟨hkept, hspec, hphase⟩ := hretains hchange
    have hsound := hinv.intact.toSound
    have hkey : current.key = key := hsound.key_of_decode found hdecode
    have hkeeps : s₁.KeepsPhases s₂ := by
      apply (hanswered.outcome hsound).keepsPhases
      intro object' stored heq hstored _
      cases heq
      have hslot : unitSlot (Resource.encode changed).key = unitSlot key :=
        congrArg unitSlot (hkept.key.trans hkey)
      cases found.symm.trans (hslot ▸ hstored)
      rw [Object.phase?_encode, Object.phase?_of_decode hdecode, hphase]
    refine hsome (hsub _ hquiet)
      ((hclear.quietly hquiet).keeps hinv hinv₂ hanswered.edits.follows hkeeps) ?_ ?_
    · exact hkept.key.trans hkey
    · exact ⟨_, List.mem_append_right _ List.mem_cons_self, object, current, found, hdecode,
        congrArg WorkUnit.Spec.batchIndex hspec.symm⟩

theorem retains_release_phase {changed : WorkUnit} (h : release u = (changed, some ())) :
    Retains u changed ∧ changed.spec = u.spec ∧ changed.status.phase = u.status.phase := by
  have hretains := retains_release h
  cases eq_of_release h
  exact ⟨hretains, rfl, rfl⟩

theorem retains_guard_phase {changed : WorkUnit} (h : guard u = (changed, some ())) :
    Retains u changed ∧ changed.spec = u.spec ∧ changed.status.phase = u.status.phase := by
  have hretains := retains_guard h
  cases eq_of_guard h
  exact ⟨hretains, rfl, rfl⟩

theorem retains_recordExecution_phase {execution : Key} {changed : WorkUnit}
    (h : recordExecution now execution u = (changed, some ())) :
    Retains u changed ∧ changed.spec = u.spec ∧ changed.status.phase = u.status.phase := by
  have hrecords := WorkUnit.records_of_recordExecution h
  obtain ⟨condition, -, hstatus⟩ := hrecords.status
  refine ⟨retains_recordExecution h, hrecords.spec, ?_⟩
  rw [hstatus]

/-- A pass follows an observation from the phase that the work unit is in. -/
theorem left_eq_of_follow {observation : Observation} {started : Option Instant}
    {moved : WorkUnit} {left : WorkUnit.Phase}
    (h : follow now observation started u = (moved, some left)) : left = u.status.phase := by
  unfold follow at h
  split at h
  · cases h
    rfl
  · cases h

theorem eq_of_release_none {same : WorkUnit} (h : release u = (same, none)) : same = u := by
  unfold release at h
  split at h
  · cases h
  · cases h
    rfl

theorem eq_of_recordExecution_none {execution : Key} {same : WorkUnit}
    (h : recordExecution now execution u = (same, none)) : same = u := by
  unfold recordExecution at h
  split at h
  · cases h
    rfl
  · cases h

/-- An event that tells of no change of a phase. -/
theorem publish_tells {payload : Event.Payload} {post : Unit → List Exchange → Store → Prop}
    {fail : List Exchange → Store → Prop} (hkey : u.key = key) (hnotice : Notice key past payload)
    (hpost : ∀ {event s₁}, past ⊆ past ++ [.publication event s₁] →
      post () (past ++ [.publication event s₁]) s₁) :
    (publish correlation u payload).Ensures anybody (Tells key) fail post past s := by
  apply Pass.Ensures.publish
  · exact ⟨hkey, hnotice⟩
  · exact fun _ _ => hpost (List.subset_append_left ..)

theorem finalize_tells (hkey : u.key = key) (hclear : Clear past) :
    PaysUp key (finalize settings correlation u) past s := by
  have hrest : ∀ {past s}, Clear past →
      PaysUp key (do
        let _ ← modifyUnit settings u.key release
        publish correlation u .finalized) past s := by
    intro past s hclear
    have hpublish : ∀ {past s}, Clear past →
        PaysUp key (publish correlation u .finalized) past s :=
      fun hclear => publish_tells correlation hkey trivial fun _ => hclear.publication
    rw [hkey]
    apply Pass.Ensures.bind
    apply modifyUnit_tells settings retains_release_phase eq_of_release_none hclear
    · exact fun _ hclear => hpublish hclear
    · exact fun _ hclear _ _ => hpublish hclear
  unfold finalize
  split
  · apply Pass.Ensures.bind
    apply Pass.Ensures.delete hclear
    intro s₁ s₂ reply _ hinv hinv₂ hanswered
    have hclear' := hclear.answered hinv hinv₂ hanswered fun _ => nofun
    cases reply with
    | ok => exact hrest hclear'
    | error e =>
      dsimp only
      split
      · exact hrest hclear'
      · exact .bind (.throw hclear')
  · exact .pure hclear

theorem deleteRecord_tells (reason : Event.Payload) (hkey : u.key = key) (hclear : Clear past)
    (hreason : ∀ past, Notice key past reason) :
    PaysUp key (deleteRecord settings correlation u reason) past s := by
  unfold deleteRecord
  apply Pass.Ensures.bind
  rw [hkey]
  apply Pass.Ensures.delete hclear
  intro s₁ s₂ reply _ hinv hinv₂ hanswered
  have hclear' := hclear.answered hinv hinv₂ hanswered fun _ => nofun
  cases reply with
  | error e =>
    dsimp only
    split
    · exact .pure hclear'
    · exact .throw hclear'
  | ok =>
    apply Pass.Ensures.bind
    apply publish_tells correlation hkey (hreason _)
    intro event s₃ _
    apply Pass.Ensures.bind
    apply Pass.Ensures.find? hclear'.publication
    · exact fun _ hquiet => (hclear'.publication).quietly hquiet
    · intro s₄ object current _ hinv₄ found hdecode
      dsimp only
      split
      · exact finalize_tells settings correlation
          (hinv₄.intact.toSound.key_of_decode found hdecode)
          ((hclear'.publication).read)
      · exact .pure ((hclear'.publication).read)
    · exact fun _ _ hquiet _ => .pure ((hclear'.publication).quietly hquiet)

theorem retainOrClean_tells (hkey : u.key = key) (hclear : Clear past) :
    PaysUp key (retainOrClean settings correlation now u) past s := by
  unfold retainOrClean
  split
  · split
    · apply Pass.Ensures.bind
      apply (deleteRecord_tells settings correlation .retentionExpired hkey hclear
        fun _ => trivial).mono
      exact fun _ _ _ hclear => .pure hclear
    · exact .pure hclear
  · exact .pure hclear

theorem announce_tells (hkey : u.key = key) (h : Owes key old u.status.phase past)
    {fail : List Exchange → Store → Prop} :
    (announce correlation u old).Ensures anybody (Tells key) fail (fun _ past _ => Clear past) past
      s := by
  have hpublish : ∀ {past s}, Owes key old u.status.phase past →
      (publish correlation u (.phaseChanged old u.status.phase)).Ensures anybody (Tells key) fail
        (fun _ past _ => Clear past) past s := by
    intro past s h
    apply Pass.Ensures.publish
    · exact ⟨hkey, h⟩
    · exact fun _ _ => Owes.clear rfl
  unfold announce
  dsimp only
  split
  · apply Pass.Ensures.bind
    apply Pass.Ensures.measure trivial
    exact fun _ _ => hpublish (h.measurement ..)
  · exact hpublish h

/-- A work unit that has been written back with the metadata that it had is stored so. -/
theorem eq_withUnit {object : Object} {changed : WorkUnit} {stored : Object} (hs : s.Reached)
    (found : s.find? (unitSlot key) = some object)
    (hmetadata : changed.metadata = object.metadata)
    (hanswered : (Request.store (.update .workUnit (Resource.encode changed))).Answered s
      (.ok stored) s') : s' = withUnit s key object changed := by
  rcases hanswered.store_cases with ⟨now, hserve⟩ | ⟨e, -, heq, -⟩
  · have hkey : (Resource.encode changed).key = (unitSlot key).key :=
      (congrArg Metadata.key hmetadata).trans (hs.intact.toSound.key_eq found)
    have hupdate := Store.update_of_held now found hkey (congrArg Metadata.version hmetadata)
      fun hdel => by
        rw [show (Resource.encode changed).metadata = object.metadata from hmetadata]
        exact hs.intact.held _ _ found hdel
    replace hserve : s.update now .workUnit (Resource.encode changed) = (.ok stored, s') := hserve
    exact (congrArg Prod.snd (hupdate.symm.trans hserve)).symm
  · cases heq

/-- After a work unit has been moved to another phase, this is owed. -/
theorem owes_of_write {object stored : Object} {current moved : WorkUnit} (hclear : Clear past)
    (hs : s.Reached) (hs' : s'.Reached) (found : s.find? (unitSlot key) = some object)
    (hdecode : Resource.decode object = .ok current)
    (hmetadata : moved.metadata = current.metadata)
    (hne : current.status.phase ≠ moved.status.phase)
    (hcan : current.status.phase.canMoveTo moved.status.phase)
    (hanswered : (Request.store (.update .workUnit (Resource.encode moved))).Answered s
      (.ok stored) s') :
    Owes key current.status.phase moved.status.phase
      (past ++ [.write .workUnit (Resource.encode moved) stored s s']) := by
  have hsound := hs.intact.toSound
  have hsound' := hs'.intact.toSound
  have hfollows := hanswered.edits.follows
  have hkept : moved.metadata = object.metadata :=
    hmetadata.trans (Resource.metadata_of_decode hdecode)
  have hkey : (Resource.encode moved).key = key :=
    (congrArg Metadata.key hkept).trans (hsound.key_eq found)
  obtain ⟨n, -, huid⟩ := hsound.issued found
  cases eq_withUnit hs found hkept hanswered
  have hmoves := Store.moves_withRevised found huid hdecode hne hcan
  refine ⟨.issued n, ?_, ?_, fun uid' hne => ?_⟩
  · have hslot : (StoreRequest.update .workUnit (Resource.encode moved)).slot? =
        some (unitSlot key) := congrArg (fun k => some (unitSlot k)) hkey
    have hmet := @Exchange.met?_of_after _ (.write .workUnit (Resource.encode moved) stored s
      (withUnit s key object moved)) _ _ rfl hslot ((Store.find?_withRevised ..).trans (if_pos rfl))
    rw [incarnation?_append hmet]
    exact huid
  · rw [owed_append, hclear]
    show (Store.moved? _ s (withUnit s key object moved) <|> none) = _
    rw [hmoves.moved?_eq hsound hsound']
    rfl
  · rw [owed_append, hclear uid']
    show (Store.moved? uid' s (withUnit s key object moved) <|> none) = _
    rw [hmoves.moved?_of_ne hsound hsound' hfollows hne]
    rfl

theorem takeOver_tells (execution : Execution) (hclear : Clear past) :
    PaysUp key (takeOver settings correlation now key execution) past s := by
  have hgoOn : ∀ {past s} {u : WorkUnit}, u.key = key → Clear past →
      PaysUp key (if u.status.phase.isTerminal then retainOrClean settings correlation now u
        else return .afterSeconds settings.requeue.whileActive) past s := by
    intro past s u hkey hclear
    split
    · exact retainOrClean_tells settings correlation now hkey hclear
    · exact .pure hclear
  unfold takeOver
  apply Pass.Ensures.bind
  apply Pass.Ensures.modify (follow_keepsPlace ..)
  · exact fun hquiet => hclear.quietly hquiet
  · intro past' s₁ object current changed note hquiet _ _ hdecode hchange
    have hmoved := advance?_of_follow hchange
    have hadvance := WorkUnit.advance_of_advance? hmoved
    refine tells_update (hclear.quietly hquiet) hdecode (retains_advance? hmoved) ?_
    rw [hadvance.phase_eq]
    exact hadvance.canMove
  · exact fun _ hquiet => hclear.quietly hquiet
  · exact fun _ _ hquiet _ => .pure (hclear.quietly hquiet)
  · intro past' s₁ object current same _ hinv hquiet found hdecode hchange
    cases eq_of_follow_none hchange
    have hkey : current.key = key := hinv.intact.toSound.key_of_decode found hdecode
    exact .bind (.pure (hgoOn hkey (hclear.quietly hquiet).read))
  · intro past' s₁ s₂ object current moved old _ hinv hinv₂ hquiet found hdecode hchange hanswered
      _ _
    have hmoved := advance?_of_follow hchange
    have hadvance := WorkUnit.advance_of_advance? hmoved
    have hkey : moved.key = key := (retains_advance? hmoved).key.trans
      (hinv.intact.toSound.key_of_decode found hdecode)
    obtain rfl := left_eq_of_follow now hchange
    apply Pass.Ensures.bind
    apply (announce_tells correlation hkey ?_).mono
    · exact fun _ _ _ hclear => hgoOn hkey hclear
    · apply owes_of_write (hclear.quietly hquiet) hinv hinv₂ found hdecode hadvance.metadata _ _
        hanswered
      · rw [hadvance.phase_eq]
        exact hadvance.ne
      · rw [hadvance.phase_eq]
        exact hadvance.canMove

theorem record_tells {execution : Execution}
    {rest : Option (WorkUnit × Option Unit) → Pass (Option (WorkUnit × Execution))}
    (hkey : u.key = key) (hclear : Clear past) (hindexed : Indexed key u.spec.batchIndex past)
    (hexecution : execution.key = key) (hnone : rest none = pure none)
    (hsome : ∀ updated note, rest (some (updated, note)) = do
      publish correlation updated (.executionCreated execution.key u.spec.batchIndex)
      return some (updated, execution)) :
    PaysUp key (modifyUnit settings u.key (recordExecution now execution.key) >>= rest) past s := by
  rw [hkey]
  apply Pass.Ensures.bind
  apply modifyUnit_tells settings (retains_recordExecution_phase now)
    (eq_of_recordExecution_none now) hclear
  · intro past' s' _ hclear'
    rw [hnone]
    exact .pure hclear'
  · intro past' s' updated note hsub hclear' hupdated _
    rw [hsome]
    apply Pass.Ensures.bind
    apply publish_tells correlation hupdated
    · exact ⟨hexecution, hindexed.mono hsub⟩
    exact fun _ => .pure hclear'.publication

theorem startExecution_tells (hkey : u.key = key) (hclear : Clear past)
    (hindexed : Indexed key u.spec.batchIndex past) :
    PaysUp key (startExecution settings correlation now u) past s := by
  unfold startExecution
  apply Pass.Ensures.bind
  apply Pass.Ensures.create ⟨hclear, nofun⟩
  · intro s₁ created _ hinv hinv₂ hnone
    have hout : s₁.Outcome (.create .execution (Resource.encode u.toExecution))
        (s₁.withNew created (Resource.slot u.toExecution) (Resource.encode u.toExecution)) :=
      .create created hnone
    refine .bind (.pure (record_tells settings correlation now hkey ?_ ?_ hkey rfl fun _ _ => rfl))
    · exact hclear.keeps hinv hinv₂ (Store.Edit.create created _ hnone rfl).follows
        (hout.keepsPhases fun _ _ => nofun)
    · exact hindexed.mono (List.subset_append_left ..)
  · intro past' s₁ e _ _ hquiet _
    dsimp only
    split
    · apply Pass.Ensures.bind
      apply Pass.Ensures.get (hclear.quietly hquiet)
      · exact fun _ hquiet' => (hclear.quietly hquiet).quietly hquiet'
      · intro s₂ object execution _ hinv₂ found hdecode
        have hexecution : execution.key = key :=
          (hinv₂.intact.toSound.key_of_decode found hdecode).trans hkey
        exact record_tells settings correlation now hkey (hclear.quietly hquiet).read
          (hindexed.mono (List.Subset.trans hquiet.subset (List.subset_append_left ..)))
          hexecution rfl fun _ _ => rfl
    · exact .bind (.throw (hclear.quietly hquiet))

theorem passOver_tells (hkey : u.key = key) (hclear : Clear past)
    (hindexed : Indexed key u.spec.batchIndex past) :
    PaysUp key (passOver settings correlation now key u) past s := by
  unfold passOver
  split
  · exact retainOrClean_tells settings correlation now hkey hclear
  · split
    · apply Pass.Ensures.bind
      apply (startExecution_tells settings correlation now hkey hclear hindexed).mono
      intro started past' s' hclear'
      cases started with
      | none => exact .pure hclear'
      | some started => exact takeOver_tells settings correlation now started.2 hclear'
    · apply Pass.Ensures.bind
      apply Pass.Ensures.find? hclear
      · exact fun _ hquiet => hclear.quietly hquiet
      · exact fun _ _ _ _ => takeOver_tells settings correlation now _ hclear.read
      · intro past' s₁ _ _ hquiet _
        apply Pass.Ensures.bind
        apply (deleteRecord_tells settings correlation .orphanRemoved hkey
          (hclear.quietly hquiet) fun _ => trivial).mono
        exact fun _ _ _ hclear' => .pure hclear'

theorem pass_tells :
    PaysUp key (pass settings key now) [] s := by
  unfold pass
  apply Pass.Ensures.bind
  apply Pass.Ensures.find? Clear.nil
  · exact fun _ hquiet => Clear.nil.quietly hquiet
  · intro s₁ object u _ hinv found hdecode
    have hkey : u.key = key := hinv.intact.toSound.key_of_decode found hdecode
    apply Pass.Ensures.bind
    apply Pass.Ensures.correlate trivial
    intro s₂ correlation _ _
    have hclear : Clear ([] ++ [.read (unitSlot key) object s₁] ++
        [{ request := .correlate, reply := correlation, before := s₂, after := s₂ }]) :=
      Clear.nil.read.append fun uid => Store.moved?_self uid s₂
    have hindexed : Indexed key u.spec.batchIndex ([] ++ [.read (unitSlot key) object s₁] ++
        [{ request := .correlate, reply := correlation, before := s₂, after := s₂ }]) :=
      ⟨_, List.mem_cons_self, object, u, found, hdecode, rfl⟩
    split
    · apply Pass.Ensures.bind
      apply (finalize_tells settings correlation hkey hclear).mono
      exact fun _ _ _ hclear' => .pure hclear'
    · split
      · exact passOver_tells settings correlation now hkey hclear hindexed
      · apply Pass.Ensures.bind
        apply modifyUnit_tells settings retains_guard_phase
          (fun hchange => (eq_of_guard_none hchange).1) hclear
        · exact fun _ hclear' => .pure hclear'
        · exact fun _ hclear' hkey' hindexed' =>
            passOver_tells settings correlation now hkey' hclear' hindexed'
  · exact fun _ _ hquiet _ => .pure (Clear.nil.quietly hquiet)

/-- **What a lifecycle pass makes known.** -/
theorem reconcile_tells :
    (reconcile settings key now).Ensures anybody (Tells key) (fun _ past _ => Clear past) [] s := by
  apply Pass.Ensures.counted (pass_tells settings now)
  · exact fun _ => rfl
  · exact fun _ => rfl
  · exact fun _ _ => trivial
  · exact fun _ _ _ hclear => hclear
  · exact fun _ _ _ s₁ _ hclear => Clear.append hclear fun uid => Store.moved?_self uid s₁

end
end Lifecycle
end CampaignControl
