import CampaignControl.Proofs.Admission.Outline
import CampaignControl.Proofs.Admission.Plan
import CampaignControl.Proofs.Condition
import CampaignControl.Proofs.Rehearsal.Scene
import CampaignControl.Proofs.Store.Alike

/-!
# An admission pass alone

What an admission pass comes to when nobody else works on the store. It is decided by what the pass
reads before it creates any work unit (`Store.survey`): it stays idle, or it rejects the campaign,
or it tries the planned work units one after the other, as far as they can be created
(`Admission.perform_createAll`).
-/

namespace CampaignControl

/-! ## Before the first work unit -/

/-- What a pass over a campaign that is not suspended comes to, as far as it is decided by what it
reads. -/
inductive Survey where
  /-- No work unit is created, and nothing is written. -/
  | idle
  | rejected (campaign : Campaign) (e : Error)
  | admits (campaign : Campaign) (units : List WorkUnit) (batches : List Batch)

namespace Admission

/-- The slot of the configuration document of a campaign. -/
def documentSlot (campaign : Campaign) : Slot where
  kind := .configDocument
  key := { space := campaign.key.space, name := Naming.configDocument campaign.key.name }

/-- What is in the slot of a configuration document that has been brought up to date. -/
def refreshed (fresh : ConfigDocument) : Option Object → Object
  | none => Resource.encode fresh
  | some o =>
    match (Resource.decode o : Except StoreError ConfigDocument) with
    | .error _ => o
    | .ok current =>
      match refresh fresh current with
      | (_, none) => o
      | (changed, some ()) => Resource.encode changed

/-- As many items as there is a budget for. -/
def within {α : Type} (budget : Option Nat) (items : List α) : List α :=
  match budget with
  | none => items
  | some n => items.take n

/-- What is made known of a work unit that a pass has tried to create. -/
def admission (campaign : Campaign) (correlation : Uid) (s : Store) (u : WorkUnit) : Event where
  correlation
  entity := u.key
  campaign := campaign.key
  payload :=
    if (s.find? (Resource.slot u)).isNone then
      .admitted u.spec.batchIndex u.spec.repositories.length
    else .adopted u.spec.batchIndex

/-- What is made known of a campaign that has been rejected. -/
def rejectionNotice (campaign : Campaign) (correlation : Uid) (e : Error) : Event where
  correlation
  entity := campaign.key
  campaign := campaign.key
  payload := .admissionRejected e.message

/-- The status of a campaign that has been rejected. -/
def rejection (e : Error) (now : Instant) (s : Campaign.Status) : Campaign.Status :=
  { s with
    message := some e.message
    conditions := (validity .fails "InvalidConfiguration" e.message now).set s.conditions }

end Admission

/-- Whether an event says that the work unit at a key has been created. -/
def Event.admits (key : Key) (e : Event) : Bool :=
  match e.payload with
  | .admitted .. => e.entity == key
  | _ => false

namespace Store

open Admission

/-- What a pass over the campaign at a key comes to, if it is not suspended and has these
repositories. -/
def survey (s : Store) (key : Key) (repositories : List String) : Survey :=
  match s.campaign? key with
  | none => .idle
  | some campaign =>
    if campaign.metadata.isDeleting then .idle
    else
      match (s.list .workUnit (unitFilter campaign)).mapM Resource.decode with
      | .error _ => .idle
      | .ok units =>
        match Partition.batches repositories campaign.spec.policy with
        | .error e => .rejected campaign e
        | .ok batches =>
          if s.isReadable (documentSlot campaign) then .admits campaign units batches else .idle

/-- The work units that a pass over the campaign at a key tries to create, in this order. -/
def planned (s : Store) (key : Key) (repositories : List String) (now : Instant) : List WorkUnit :=
  match s.survey key repositories with
  | .idle | .rejected .. => []
  | .admits campaign units batches => (plan campaign units batches now).create

/-- Those work units that are not stored yet. -/
def missing (s : Store) (units : List WorkUnit) : List WorkUnit :=
  units.filter fun u => (s.find? (Resource.slot u)).isNone

variable {s : Store} {key : Key} {repositories : List String} {campaign : Campaign}
  {units : List WorkUnit} {batches : List Batch}

theorem campaign_key_eq (hs : s.Reached) (hcampaign : s.campaign? key = some campaign) :
    campaign.key = key := by
  obtain ⟨o, found, hdecode⟩ := campaign?_eq_some.1 hcampaign
  exact (Resource.key_of_decode hdecode).trans (hs.intact.toSound.key_eq found)

theorem survey_eq_rejected {e : Error} : s.survey key repositories = .rejected campaign e ↔
    s.campaign? key = some campaign ∧ campaign.metadata.isDeleting = false ∧
      (∃ units : List WorkUnit,
        (s.list .workUnit (unitFilter campaign)).mapM Resource.decode = .ok units) ∧
      Partition.batches repositories campaign.spec.policy = .error e := by
  constructor
  · intro h
    unfold survey at h
    split at h
    · cases h
    · next found =>
      split at h
      · cases h
      · next hdel =>
        split at h
        · cases h
        · next units hunits =>
          split at h
          · next hbatches =>
            cases h
            exact ⟨found, Bool.not_eq_true _ ▸ hdel, ⟨units, hunits⟩, hbatches⟩
          · split at h <;> cases h
  · rintro ⟨found, hdel, ⟨units, hunits⟩, hbatches⟩
    simp only [survey, found, hdel, hunits, hbatches, Bool.false_eq_true, if_false]

theorem survey_eq_admits : s.survey key repositories = .admits campaign units batches ↔
    s.campaign? key = some campaign ∧ campaign.metadata.isDeleting = false ∧
      (s.list .workUnit (unitFilter campaign)).mapM Resource.decode = .ok units ∧
      Partition.batches repositories campaign.spec.policy = .ok batches ∧
      s.isReadable (documentSlot campaign) := by
  constructor
  · intro h
    unfold survey at h
    split at h
    · cases h
    · next found =>
      split at h
      · cases h
      · next hdel =>
        split at h
        · cases h
        · next hunits =>
          split at h
          · cases h
          · next hbatches =>
            split at h
            · next hreadable =>
              cases h
              exact ⟨found, Bool.not_eq_true _ ▸ hdel, hunits, hbatches, hreadable⟩
            · cases h
  · rintro ⟨found, hdel, hunits, hbatches, hreadable⟩
    simp only [survey, found, hdel, hunits, hbatches, hreadable, Bool.false_eq_true, if_false,
      if_true]

end Store

namespace Admission

open Pass

variable {settings : Settings} {key : Key} {campaign current : Campaign} {correlation : Uid}
  {now : Instant} {scene : Scene} {batches : List Batch} {slot : Slot}

/-! ## The configuration document -/

theorem slot_document (campaign : Campaign) (batches : List Batch) :
    Resource.slot (document campaign batches) = documentSlot campaign := rfl

/-- Whether there is something to refresh does not depend on metadata. -/
theorem refresh_setMetadata (fresh current : ConfigDocument) (m : Metadata) :
    refresh fresh { current with metadata := m } =
      ({ (refresh fresh current).1 with metadata := m }, (refresh fresh current).2) := by
  unfold refresh
  dsimp only
  split <;> rfl

theorem refresh_refresh {fresh current changed : ConfigDocument}
    (h : refresh fresh current = (changed, some ())) : (refresh fresh changed).1 = changed := by
  unfold refresh at h
  split at h
  · cases h
  · cases h
    unfold refresh
    split <;> rfl

/-- A document that is up to date stays as it is. -/
theorem bare_refreshed {fresh : ConfigDocument} {before : Option Object} {o : Object}
    (h : o.bare = (refreshed fresh before).bare) : (refreshed fresh (some o)).bare = o.bare := by
  have hbody : o.bare.body = (refreshed fresh before).body := by rw [h]; rfl
  replace hbody : o.body = (refreshed fresh before).body := hbody
  -- what is stored as a document with the right contents
  have hcontents : ∀ d : ConfigDocument, o.body = Resource.body d → (refresh fresh d).1 = d →
      refreshed fresh (some o) = o := by
    intro d hd hsame
    have hdecode : (Resource.decode o : Except StoreError ConfigDocument) =
        .ok { d with metadata := o.metadata } := by
      have hstored := Resource.decode_stored o.metadata d
      rwa [← hd] at hstored
    simp only [refreshed, hdecode, refresh_setMetadata, hsame]
    cases (refresh fresh d).2 with
    | none => rfl
    | some =>
      show Object.mk o.metadata (Resource.body d) = o
      rw [← hd]
  cases before with
  | none => rw [hcontents fresh hbody (by unfold refresh; split <;> rfl)]
  | some old =>
    cases hold : (Resource.decode old : Except StoreError ConfigDocument) with
    | error e =>
      simp only [refreshed, hold] at hbody
      have hdecode := Resource.decode_eq_map (α := ConfigDocument) hbody
      rw [hold] at hdecode
      simp only [refreshed, hdecode, Except.map]
    | ok current =>
      cases hrefresh : refresh fresh current with
      | mk changed note =>
        cases note with
        | none =>
          simp only [refreshed, hold, hrefresh] at hbody
          have hdecode := Resource.decode_eq_map (α := ConfigDocument) hbody
          rw [hold] at hdecode
          replace hdecode : (Resource.decode o : Except StoreError ConfigDocument) =
            .ok { current with metadata := o.metadata } := hdecode
          simp only [refreshed, hdecode, refresh_setMetadata, hrefresh]
        | some =>
          simp only [refreshed, hold, hrefresh] at hbody
          rw [hcontents changed hbody (refresh_refresh hrefresh)]

theorem charge_of_kind_ne {kind : Kind} (h : kind ≠ .workUnit) (object : Object)
    (budget : Option Nat) : Scene.charge (.create kind object) budget = (none, budget) := by
  cases kind <;> first | rfl | exact absurd rfl h

/-- An object that is replaced by one with its own metadata differs from that in nothing but what a
store gives. -/
theorem bare_revised {α : Type} [Resource α] {s : Store} {old : Object} {changed : α}
    (h : Resource.metadata changed = old.metadata) :
    (s.revised old (Resource.encode changed)).bare = (Resource.encode changed).bare := by
  unfold Store.revised Object.bare Metadata.bare Resource.encode
  dsimp only
  rw [h]

/-- The configuration document is there after a pass has put it. -/
theorem perform_putDocument (settings : Settings) (batches : List Batch) (hs : scene.store.Reached)
    (hreadable : scene.store.isReadable (documentSlot campaign)) :
    ∃ s', (putDocument settings campaign batches).perform scene =
        (.ok (), { scene with store := s' }) ∧
      Store.AlikeBut (documentSlot campaign) scene.store s' ∧
      ∃ o, s'.find? (documentSlot campaign) = some o ∧ o.bare = (refreshed
        (document campaign batches) (scene.store.find? (documentSlot campaign))).bare := by
  have hcharge := charge_of_kind_ne (show Kind.configDocument ≠ .workUnit from nofun)
    (Resource.encode (document campaign batches)) scene.budget
  unfold putDocument
  cases found : scene.store.find? (documentSlot campaign) with
  | none =>
    rw [perform_bind_ok (perform_create_none hcharge found)]
    refine ⟨_, rfl, .withNew ..,
      scene.store.newborn scene.clock (Resource.encode (document campaign batches)), ?_, rfl⟩
    rw [slot_document, Store.find?_withNew, if_pos rfl]
  | some o =>
    rw [perform_bind_ok (perform_create_some hcharge found)]
    simp only [StoreError.isAlreadyExists, if_true]
    have hkey : scene.store.find?
        { kind := Resource.kind ConfigDocument,
          key := (document campaign batches).metadata.key } = some o := found
    obtain ⟨current, hdecode⟩ : ∃ current : ConfigDocument, Resource.decode o = .ok current := by
      rw [Store.isReadable, found, Option.all_some] at hreadable
      obtain ⟨current, h⟩ := Option.isSome_iff_exists.1 hreadable
      exact ⟨current, Resource.eq_ok_of_toOption_decode h⟩
    cases hchange : refresh (document campaign batches) current with
    | mk changed note =>
      cases note with
      | none =>
        rw [perform_bind_ok (perform_modify_same hkey hdecode hchange)]
        refine ⟨scene.store, rfl, .refl .., o, found, ?_⟩
        simp only [refreshed, hdecode, hchange]
      | some =>
        have hmetadata : changed.metadata = o.metadata := by
          have := metadata_refresh (document campaign batches) current
          rw [hchange] at this
          exact this.trans (Resource.metadata_of_decode hdecode)
        rw [perform_bind_ok (perform_modify_written hs.intact.toSound hkey hdecode hchange
          (.of_metadata (metadata_refresh _)) fun hdel => ?_)]
        · refine ⟨_, rfl, .withRevised .., scene.store.revised o (Resource.encode changed), ?_, ?_⟩
          · exact (Store.find?_withRevised ..).trans (if_pos rfl)
          · simp only [refreshed, hdecode, hchange]
            exact bare_revised hmetadata
        · show changed.metadata.finalizers ≠ []
          rw [hmetadata]
          exact hs.intact.held _ _ found hdel

/-- A document that cannot be read ends a pass. -/
theorem perform_putDocument_error (settings : Settings) (batches : List Batch)
    (hreadable : scene.store.isReadable (documentSlot campaign) = false) :
    ∃ e, (putDocument settings campaign batches).perform scene = (.error e, scene) := by
  have hcharge := charge_of_kind_ne (show Kind.configDocument ≠ .workUnit from nofun)
    (Resource.encode (document campaign batches)) scene.budget
  unfold Store.isReadable at hreadable
  cases found : scene.store.find? (documentSlot campaign) with
  | none => rw [found] at hreadable; cases hreadable
  | some o =>
    rw [found, Option.all_some] at hreadable
    have hkey : scene.store.find?
        { kind := Resource.kind ConfigDocument,
          key := (document campaign batches).metadata.key } = some o := found
    cases hdecode : (Resource.decode o : Except StoreError ConfigDocument) with
    | ok current => rw [hdecode] at hreadable; cases hreadable
    | error e =>
      refine ⟨.store e, ?_⟩
      unfold putDocument
      rw [perform_bind_ok (perform_create_some hcharge found)]
      simp only [StoreError.isAlreadyExists, if_true]
      rw [perform_bind_error (perform_modify_error hkey hdecode)]

/-! ## The report on the campaign -/

/-- A change of the status of the campaign is written back unless nothing is to be written. -/
theorem perform_modifyCampaign (settings : Settings) (status : Campaign.Status)
    {change : Campaign → Campaign × Option Unit} (hs : scene.store.Reached)
    (hcurrent : scene.store.campaign? campaign.key = some current)
    (hchange : (change current).1 = { current with status })
    (hsame : (change current).2 = none → status = current.status)
    (hmetadata : ∀ c, (change c).1.metadata = c.metadata) :
    ∃ s' version, (modifyCampaign settings campaign change).perform scene =
        (.ok (), { scene with store := s' }) ∧
      Store.AlikeBut { kind := .campaign, key := campaign.key } scene.store s' ∧
      s'.campaign? campaign.key = some { current with
        status, metadata := { current.metadata with version } } := by
  obtain ⟨o, found, hdecode⟩ := Store.campaign?_eq_some.1 hcurrent
  have hmeta : current.metadata = o.metadata := Resource.metadata_of_decode hdecode
  unfold modifyCampaign
  cases houtcome : change current with
  | mk changed note =>
    rw [houtcome] at hchange hsame
    cases hchange
    cases note with
    | none =>
      cases hsame rfl
      rw [perform_bind_ok (perform_modify_same found hdecode houtcome)]
      exact ⟨scene.store, current.metadata.version, rfl, .refl .., hcurrent⟩
    | some =>
      rw [perform_bind_ok (perform_modify_written hs.intact.toSound found hdecode houtcome
        (.of_metadata hmetadata) fun h => ?_)]
      · exact ⟨_, scene.store.revision + 1, rfl, .withRevised ..,
          Store.campaign?_withRevised hdecode rfl⟩
      · show current.metadata.finalizers ≠ []
        rw [hmeta]
        exact hs.intact.held _ _ found h

theorem perform_writeStatus (settings : Settings) (now : Instant) (hs : scene.store.Reached)
    (hcurrent : scene.store.campaign? campaign.key = some current) (outcome : Outcome)
    (admittedAt : Option Instant) :
    ∃ s' version, (writeStatus settings campaign now outcome admittedAt).perform scene =
        (.ok (), { scene with store := s' }) ∧
      Store.AlikeBut { kind := .campaign, key := campaign.key } scene.store s' ∧
      s'.campaign? campaign.key = some { current with
        status := outcome.report admittedAt now current.status
        metadata := { current.metadata with version } } := by
  refine perform_modifyCampaign settings _ hs hcurrent rfl (fun h => ?_) fun _ => rfl
  dsimp only at h
  split at h
  · next heq => exact heq
  · cases h

/-- What a rejection makes of a campaign. It is written back if it tells something new. -/
def rejecting (e : Error) (now : Instant) (c : Campaign) : Campaign × Option Unit :=
  ({ c with status := rejection e now c.status },
    if (validity .fails "InvalidConfiguration" e.message now).isNews c.status.conditions ||
        c.status.message != some e.message then some () else none)

theorem rejecting_eq_none (e : Error) (now : Instant) {c : Campaign}
    (h : (rejecting e now c).2 = none) : rejection e now c.status = c.status := by
  unfold rejecting at h
  dsimp only at h
  split at h
  · cases h
  · next hold =>
    rw [Bool.not_eq_true, Bool.or_eq_false_iff, bne_eq_false_iff_eq] at hold
    rw [rejection, Condition.set_of_not_isNews hold.1, ← hold.2]

theorem perform_reject (settings : Settings) (correlation : Uid) (now : Instant)
    (hs : scene.store.Reached) (hcurrent : scene.store.campaign? campaign.key = some current)
    (e : Error) :
    ∃ s' version, (reject settings campaign correlation now e).perform scene =
        (.ok (), { scene with
          store := s'
          events := scene.events ++ [rejectionNotice campaign correlation e] }) ∧
      Store.AlikeBut { kind := .campaign, key := campaign.key } scene.store s' ∧
      s'.campaign? campaign.key = some { current with
        status := rejection e now current.status
        metadata := { current.metadata with version } } := by
  obtain ⟨s', version, hmodify, halike, hcampaign⟩ := perform_modifyCampaign settings _ hs hcurrent
    rfl (rejecting_eq_none e now) fun _ => rfl
  refine ⟨s', version, ?_, halike, hcampaign⟩
  show (Pass.outcome (modifyCampaign settings campaign (rejecting e now)) >>= _).perform scene = _
  rw [perform_bind_ok (perform_outcome ..), hmodify]
  rfl

/-! ## Work units -/

/-- A work unit is tried, or no more of them can be created. -/
theorem charge_cases (u : WorkUnit) (rest : List WorkUnit) (budget : Option Nat) :
    (Scene.charge (.create (Resource.kind WorkUnit) (Resource.encode u)) budget =
        (some Scene.creationError, budget) ∧ within budget (u :: rest) = []) ∨
      ∃ left, Scene.charge (.create (Resource.kind WorkUnit) (Resource.encode u)) budget =
        (none, left) ∧ within budget (u :: rest) = u :: within left rest := by
  match budget with
  | none => exact .inr ⟨none, rfl, rfl⟩
  | some 0 => exact .inl ⟨rfl, rfl⟩
  | some (n + 1) => exact .inr ⟨some n, rfl, rfl⟩

theorem missing_congr {s s' : Store} {units : List WorkUnit}
    (h : ∀ u ∈ units, s'.find? (Resource.slot u) = s.find? (Resource.slot u)) :
    s'.missing units = s.missing units :=
  List.filter_congr fun u hu => by rw [h u hu]

theorem map_admission_congr {s s' : Store} {units : List WorkUnit}
    (h : ∀ u ∈ units, s'.find? (Resource.slot u) = s.find? (Resource.slot u)) :
    units.map (admission campaign correlation s') = units.map (admission campaign correlation s) :=
  List.map_congr_left fun u hu => by rw [admission, h u hu]; rfl

section

variable {u : WorkUnit} {o : Object} {s : Store}

theorem missing_cons_of_none (found : s.find? (Resource.slot u) = none) (rest : List WorkUnit) :
    s.missing (u :: rest) = u :: s.missing rest :=
  List.filter_cons_of_pos (by rw [found]; rfl)

theorem missing_cons_of_some (found : s.find? (Resource.slot u) = some o) (rest : List WorkUnit) :
    s.missing (u :: rest) = s.missing rest :=
  List.filter_cons_of_neg (by rw [found]; exact Bool.false_ne_true)

theorem admission_of_none (found : s.find? (Resource.slot u) = none) :
    admission campaign correlation s u =
      { correlation, entity := u.key, campaign := campaign.key
        payload := .admitted u.spec.batchIndex u.spec.repositories.length } := by
  rw [admission, found]
  rfl

theorem admission_of_some (found : s.find? (Resource.slot u) = some o) :
    admission campaign correlation s u =
      { correlation, entity := u.key, campaign := campaign.key
        payload := .adopted u.spec.batchIndex } := by
  rw [admission, found]
  rfl

end

theorem sublist_within {α : Type} (budget : Option Nat) (items : List α) :
    (within budget items).Sublist items := by
  cases budget with
  | none => exact .refl _
  | some n => exact List.take_sublist ..

/-- The work units are tried one after the other as long as they can be created. Those that are
missing are there afterwards. -/
theorem perform_createAll (campaign : Campaign) (correlation : Uid) {units : List WorkUnit}
    (hnodup : (units.map Resource.slot).Nodup) (outcome : Outcome) (scene : Scene) :
    ∃ left, (createAll campaign correlation outcome units).perform scene =
      (.ok ({ outcome with
            created := outcome.created + (scene.store.missing (within scene.budget units)).length
            live := outcome.live + (within scene.budget units).length },
          if (within scene.budget units).length = units.length then none
          else some Scene.creationError),
        { scene with
          budget := left
          store := scene.store.withUnits scene.clock
            (scene.store.missing (within scene.budget units))
          events := scene.events ++
            (within scene.budget units).map (admission campaign correlation scene.store) }) := by
  induction units generalizing outcome scene with
  | nil =>
    have hnil : within scene.budget ([] : List WorkUnit) = [] :=
      List.sublist_nil.1 (sublist_within ..)
    refine ⟨scene.budget, ?_⟩
    rw [hnil, List.map_nil, List.append_nil]
    rfl
  | cons u rest ih =>
    obtain ⟨hnot, hrest⟩ := List.nodup_cons.1 hnodup
    have hne : ∀ u' ∈ rest, Resource.slot u ≠ Resource.slot u' :=
      fun u' hu' heq => hnot (List.mem_map.2 ⟨u', hu', heq.symm⟩)
    unfold createAll
    rcases charge_cases u rest scene.budget with ⟨hcharge, hnil⟩ | ⟨left, hcharge, hcons⟩
    · refine ⟨scene.budget, ?_⟩
      rw [perform_bind_ok (perform_create_refused hcharge), hnil, List.map_nil, List.append_nil]
      rfl
    · rw [hcons]
      have hsub : ∀ u' ∈ within left rest, u' ∈ rest := fun _ h => (sublist_within ..).subset h
      cases found : scene.store.find? (Resource.slot u) with
      | none =>
        rw [perform_bind_ok (perform_create_none hcharge found)]
        dsimp only
        rw [perform_bind_ok (perform_measure ..), publish, perform_bind_ok (perform_publish ..)]
        -- the other slots are as they were
        have hsame : ∀ u' ∈ within left rest,
            (scene.store.withNew scene.clock (Resource.slot u) (Resource.encode u)).find?
              (Resource.slot u') = scene.store.find? (Resource.slot u') := by
          intro u' hu'
          rw [Store.find?_withNew, if_neg (hne u' (hsub u' hu'))]
        obtain ⟨left', hih⟩ := ih hrest
          { outcome with created := outcome.created + 1, live := outcome.live + 1 }
          { scene with
            budget := left
            store := scene.store.withNew scene.clock (Resource.slot u) (Resource.encode u)
            events := scene.events ++ [{
              correlation, entity := u.key, campaign := campaign.key
              payload := .admitted u.spec.batchIndex u.spec.repositories.length }] }
        refine ⟨left', hih.trans ?_⟩
        rw [missing_cons_of_none found, List.map_cons, admission_of_none found]
        simp only [missing_congr hsame, map_admission_congr hsame, List.append_assoc,
          List.singleton_append, List.length_cons, Nat.add_right_cancel_iff, Store.withUnits,
          Nat.add_assoc, Nat.add_comm 1]
      | some o =>
        rw [perform_bind_ok (perform_create_some hcharge found)]
        simp only [StoreError.isAlreadyExists, if_true]
        rw [publish, perform_bind_ok (perform_publish ..)]
        obtain ⟨left', hih⟩ := ih hrest { outcome with live := outcome.live + 1 }
          { scene with
            budget := left
            events := scene.events ++ [{
              correlation, entity := u.key, campaign := campaign.key
              payload := .adopted u.spec.batchIndex }] }
        refine ⟨left', hih.trans ?_⟩
        rw [missing_cons_of_some found, List.map_cons, admission_of_some found]
        simp only [List.append_assoc, List.singleton_append, List.length_cons,
          Nat.add_right_cancel_iff, Nat.add_assoc, Nat.add_comm 1]

/-! ## The pass as a whole -/

/-- What a pass leaves that has tried these work units. -/
structure Admitted (campaign : Campaign) (units : List WorkUnit) (batches : List Batch)
    (now : Instant) (tried : List WorkUnit) (s s' : Store) : Prop where
  reported : ∃ version, s'.campaign? campaign.key = some { campaign with
    status := Outcome.report { created := (s.missing tried).length
                               live := liveCount units + tried.length
                               batchCount := batches.length } (some now) now campaign.status
    metadata := { campaign.metadata with version } }
  document : ∃ o, s'.find? (documentSlot campaign) = some o ∧
    o.bare = (refreshed (document campaign batches) (s.find? (documentSlot campaign))).bare
  created : ∀ u ∈ s.missing tried, ∃ o, s'.find? (Resource.slot u) = some o ∧
    o.bare = (Resource.encode u).bare
  other : ∀ slot, slot ≠ { kind := .campaign, key := campaign.key } →
    slot ≠ documentSlot campaign → (∀ u ∈ s.missing tried, Resource.slot u ≠ slot) →
    s'.find? slot = s.find? slot
  listed : ∃ units' news : List WorkUnit,
    (s'.list .workUnit (unitFilter campaign)).mapM Resource.decode = .ok units' ∧
    units'.Perm (units ++ news) ∧ (news.map fun u => (u.spec, u.status)).Perm
      ((s.missing tried).map fun u => (u.spec, u.status))

/-- What a pass leaves that has rejected the campaign. -/
structure Rejected (campaign : Campaign) (e : Error) (now : Instant) (s s' : Store) : Prop where
  reported : ∃ version, s'.campaign? campaign.key = some { campaign with
    status := rejection e now campaign.status
    metadata := { campaign.metadata with version } }
  alike : Store.AlikeBut { kind := .campaign, key := campaign.key } s s'

/-- The work units of a plan are new ones for batches of the campaign. -/
theorem selects_workUnit {uid : Uid} (huid : campaign.metadata.uid = some uid) (index : Nat)
    (batch : Batch) (now : Instant) {m : Metadata}
    (hkey : m.key = (workUnit campaign index batch now).metadata.key)
    (howner : m.owner = (workUnit campaign index batch now).metadata.owner) :
    (unitFilter campaign).selects m := by
  have hspace : m.key.space = campaign.key.space := by rw [hkey]; rfl
  have huid' : m.owner.map (·.uid) = some uid := by
    rw [howner]
    show (campaign.metadata.asOwner _).map (·.uid) = some uid
    unfold Metadata.asOwner
    rw [huid]
    rfl
  unfold unitFilter
  rw [huid]
  simp [Filter.selects, hspace, huid']

/-- The planned work units go into different slots. -/
theorem nodup_slots (campaign : Campaign) (units : List WorkUnit) (batches : List Batch)
    (now : Instant) : ((plan campaign units batches now).create.map Resource.slot).Nodup := by
  have h := nodup_create campaign units batches now
  have hslot : ((plan campaign units batches now).create.map Resource.slot) =
      ((plan campaign units batches now).create.map WorkUnit.key).map (Slot.mk .workUnit) := by
    rw [List.map_map]
    rfl
  rw [hslot]
  exact h.map fun a b h => congrArg Slot.key h

theorem running_plan (campaign : Campaign) (units : List WorkUnit) (batches : List Batch)
    (now : Instant) : (plan campaign units batches now).running = liveCount units := by
  unfold plan
  split <;> rfl

/-- A pass that has tried work units brings the configuration document up to date, creates those
of the work units that are missing, and reports on the campaign. -/
theorem admitted_of_changes {units tried : List WorkUnit} {s s₁ s₂ s₃ : Store} {uid : Uid}
    {version : Nat} (huid : campaign.metadata.uid = some uid)
    (hunits : (s.list .workUnit (unitFilter campaign)).mapM Resource.decode = .ok units)
    (htried : tried.Sublist (plan campaign units batches now).create)
    (hput : Store.AlikeBut (documentSlot campaign) s s₁)
    (hdocument : ∃ o, s₁.find? (documentSlot campaign) = some o ∧ o.bare =
      (refreshed (document campaign batches) (s.find? (documentSlot campaign))).bare)
    (hcreated : Store.Gains (s.missing tried) s₁ s₂)
    (hreport : Store.AlikeBut { kind := .campaign, key := campaign.key } s₂ s₃)
    (hcampaign : s₃.campaign? campaign.key = some { campaign with
      status := Outcome.report { created := (s.missing tried).length
                                 live := liveCount units + tried.length
                                 batchCount := batches.length } (some now) now campaign.status
      metadata := { campaign.metadata with version } }) :
    Admitted campaign units batches now tried s s₃ := by
  have hmade : ∀ u ∈ s.missing tried, ∃ index batch, u = workUnit campaign index batch now :=
    fun u hu => exists_of_mem_create (htried.subset (List.mem_of_mem_filter hu))
  have hnodup : ((s.missing tried).map Resource.slot).Nodup :=
    ((List.filter_sublist.trans htried).map _).nodup (nodup_slots campaign units batches now)
  have hunit : ∀ u : WorkUnit, s₁.find? (Resource.slot u) = s.find? (Resource.slot u) :=
    fun u => hput.find? _ (Slot.ne_of_kind_ne (by decide))
  have hother : ∀ slot : Slot, slot ≠ { kind := .campaign, key := campaign.key } →
      (∀ u ∈ s.missing tried, Resource.slot u ≠ slot) → s₃.find? slot = s₁.find? slot :=
    fun slot hne hnot => (hreport.find? slot hne).trans (hcreated.find?_of_not_mem hnot)
  refine ⟨⟨version, hcampaign⟩, ?_, fun u hu => ?_, fun slot hne hne' hnot => ?_, ?_⟩
  · obtain ⟨o, found, hbare⟩ := hdocument
    exact ⟨o, (hother _ (Slot.ne_of_kind_ne (by decide)) fun u _ =>
      Slot.ne_of_kind_ne (by decide)).trans found, hbare⟩
  · obtain ⟨before, clock, found⟩ := hcreated.find?_of_mem hnodup hu
    refine ⟨_, (hreport.find? _ (Slot.ne_of_kind_ne (by decide))).trans found, ?_⟩
    obtain ⟨index, batch, rfl⟩ := hmade u hu
    rfl
  · exact (hother slot hne hnot).trans (hput.find? slot hne')
  · rw [hreport.list .workUnit _ (nofun : Kind.workUnit ≠ .campaign)]
    have hlisted : (s₁.list .workUnit (unitFilter campaign)).mapM Resource.decode = .ok units := by
      rw [hput.list .workUnit _ (nofun : Kind.workUnit ≠ .configDocument)]
      exact hunits
    obtain ⟨units', news, hunits', hperm, hnews⟩ := hcreated.list hlisted
      (fun u hu => (hunit u).trans (Option.isNone_iff_eq_none.1 (List.mem_filter.1 hu).2)) hnodup
      fun u hu m hkey howner _ => by
        obtain ⟨index, batch, rfl⟩ := hmade u hu
        exact selects_workUnit huid index batch now hkey howner
    exact ⟨units', news, hunits', hperm, .of_eq hnews⟩

theorem perform_admitAll (settings : Settings) (correlation : Uid) (now : Instant)
    {units : List WorkUnit} (batches : List Batch) (hs : scene.store.Reached)
    (hcampaign : scene.store.campaign? campaign.key = some campaign)
    (hunits : (scene.store.list .workUnit (unitFilter campaign)).mapM Resource.decode = .ok units)
    (hreadable : scene.store.isReadable (documentSlot campaign)) :
    let planned := (plan campaign units batches now).create
    let tried := within scene.budget planned
    ∃ result after,
      (admitAll settings campaign correlation now units batches).perform scene = (result, after) ∧
      Admitted campaign units batches now tried scene.store after.store ∧
      after.events = scene.events ++ tried.map (admission campaign correlation scene.store) ∧
      (if tried.length = planned.length then result = .ok (Outcome.action
          { created := (scene.store.missing tried).length, live := liveCount units + tried.length,
            batchCount := batches.length } settings.requeue)
        else result = .error (.store Scene.creationError)) := by
  intro planned tried
  obtain ⟨o, found, hdecode⟩ := Store.campaign?_eq_some.1 hcampaign
  obtain ⟨n, -, huid⟩ := hs.intact.issued found
  rw [← Resource.metadata_of_decode hdecode] at huid
  -- the document
  obtain ⟨s₁, hdocument, halike₁, hput⟩ := perform_putDocument settings batches hs hreadable
  have hs₁ : s₁.Reached := by
    have h := perform_reached (putDocument settings campaign batches) hs
    rwa [hdocument] at h
  have hunit : ∀ u ∈ tried, s₁.find? (Resource.slot u) = scene.store.find? (Resource.slot u) :=
    fun u _ => halike₁.find? _ (Slot.ne_of_kind_ne (by decide))
  -- the work units
  let outcome : Outcome := { live := (plan campaign units batches now).running
                             batchCount := batches.length }
  obtain ⟨left, hcreate⟩ := perform_createAll campaign correlation
    (nodup_slots campaign units batches now) outcome { scene with store := s₁ }
  dsimp only at hcreate
  rw [missing_congr hunit, map_admission_congr hunit] at hcreate
  let scene₂ : Scene := { scene with
    budget := left
    store := s₁.withUnits scene.clock (scene.store.missing tried)
    events := scene.events ++ tried.map (admission campaign correlation scene.store) }
  have hs₂ : scene₂.store.Reached := by
    have h := perform_reached (createAll campaign correlation outcome planned)
      (show ({ scene with store := s₁ } : Scene).store.Reached from hs₁)
    rwa [hcreate] at h
  -- the report
  have hcampaign₂ : scene₂.store.campaign? campaign.key = some campaign :=
    ((Store.gains_withUnits ..).campaign? _).trans
      ((halike₁.campaign? (show Kind.configDocument ≠ .campaign by decide) _).trans hcampaign)
  obtain ⟨s₃, version, hreport, halike₃, hcampaign₃⟩ := perform_writeStatus settings now hs₂
    hcampaign₂
    { outcome with
      created := outcome.created + (scene.store.missing tried).length
      live := outcome.live + tried.length } (some now)
  simp only [outcome, Nat.zero_add, running_plan] at hcampaign₃
  have hadmitted := admitted_of_changes huid hunits (sublist_within ..) halike₁ hput
    (Store.gains_withUnits ..) halike₃ hcampaign₃
  unfold admitAll
  rw [perform_bind_ok hdocument, perform_bind_ok hcreate]
  dsimp only
  rw [perform_bind_ok (perform_measure ..), perform_bind_ok hreport]
  by_cases hall : tried.length = planned.length
  · rw [if_pos hall]
    refine ⟨_, _, rfl, hadmitted, rfl, ?_⟩
    rw [if_pos hall]
    show Except.ok (Outcome.action _ _) = _
    simp only [outcome, Nat.zero_add, running_plan]
    rfl
  · rw [if_neg hall]
    refine ⟨_, _, rfl, hadmitted, rfl, ?_⟩
    rw [if_neg hall]

/-- What a pass leaves that can create so many work units. -/
def Leaves (key : Key) (repositories : List String) (now : Instant) (budget : Option Nat)
    (s s' : Store) : Prop :=
  match s.survey key repositories with
  | .idle => s' = s
  | .rejected campaign e => Rejected campaign e now s s'
  | .admits campaign units batches =>
    Admitted campaign units batches now (within budget (plan campaign units batches now).create)
      s s'

/-- Every work unit that is missing is announced as admitted, and no other one. -/
theorem countP_map_admission (campaign : Campaign) (correlation : Uid) (s : Store)
    (tried : List WorkUnit) (k : Key) :
    (tried.map (admission campaign correlation s)).countP (Event.admits k) =
      (s.missing tried).countP (·.key == k) := by
  rw [List.countP_map, Store.missing, List.countP_filter]
  refine List.countP_congr fun u _ => ?_
  simp only [Function.comp_apply, admission, Event.admits]
  cases (s.find? (Resource.slot u)).isNone <;> simp

/-- What a pass alone comes to. -/
structure Solo (key : Key) (repositories : List String) (now : Instant) (scene : Scene)
    (result : Except Error Action) (after : Scene) : Prop where
  leaves : Leaves key repositories now scene.budget scene.store after.store
  announced : ∀ k, after.events.countP (Event.admits k) = scene.events.countP (Event.admits k) +
    (scene.store.missing
      (within scene.budget (scene.store.planned key repositories now))).countP (·.key == k)
  failed : (within scene.budget (scene.store.planned key repositories now)).length <
      (scene.store.planned key repositories now).length →
    result = .error (.store Scene.creationError)

theorem within_nil {α : Type} (budget : Option Nat) : within budget ([] : List α) = [] :=
  List.sublist_nil.1 (sublist_within ..)

/-- An idle pass leaves the store as it is, and announces nothing. -/
theorem Solo.of_idle {repositories : List String} {after : Scene} {result : Except Error Action}
    (hsurvey : scene.store.survey key repositories = .idle) (hstore : after.store = scene.store)
    (hevents : after.events = scene.events) : Solo key repositories now scene result after := by
  have hplanned : scene.store.planned key repositories now = [] := by
    rw [Store.planned, hsurvey]
  refine ⟨?_, fun k => ?_, fun hlt => ?_⟩
  · rw [Leaves, hsurvey]
    exact hstore
  · rw [hplanned, within_nil, hevents]
    rfl
  · rw [hplanned] at hlt
    cases hlt

/-- A pass that rejects the campaign says so, and announces no work unit. -/
theorem Solo.of_rejected {repositories : List String} {after : Scene}
    {result : Except Error Action} {e : Error} {event : Event}
    (hsurvey : scene.store.survey key repositories = .rejected campaign e)
    (hrejected : Rejected campaign e now scene.store after.store)
    (hevents : after.events = scene.events ++ [event]) (hquiet : ∀ k, event.admits k = false) :
    Solo key repositories now scene result after := by
  have hplanned : scene.store.planned key repositories now = [] := by
    rw [Store.planned, hsurvey]
  refine ⟨?_, fun k => ?_, fun hlt => ?_⟩
  · rw [Leaves, hsurvey]
    exact hrejected
  · rw [hplanned, within_nil, hevents, List.countP_append, List.countP_singleton, hquiet]
    rfl
  · rw [hplanned] at hlt
    cases hlt

/-- A pass that tries the planned work units announces those of them that were missing. -/
theorem Solo.of_admits {repositories : List String} {after : Scene}
    {result : Except Error Action} {units : List WorkUnit}
    (hsurvey : scene.store.survey key repositories = .admits campaign units batches)
    (hadmitted : Admitted campaign units batches now
      (within scene.budget (plan campaign units batches now).create) scene.store after.store)
    (hevents : after.events = scene.events ++
      (within scene.budget (plan campaign units batches now).create).map
        (admission campaign correlation scene.store))
    (hfailed : (within scene.budget (plan campaign units batches now).create).length ≠
      (plan campaign units batches now).create.length →
        result = .error (.store Scene.creationError)) :
    Solo key repositories now scene result after := by
  have hplanned : scene.store.planned key repositories now =
      (plan campaign units batches now).create := by
    rw [Store.planned, hsurvey]
  refine ⟨?_, fun k => ?_, fun hlt => ?_⟩
  · rw [Leaves, hsurvey]
    exact hadmitted
  · rw [hplanned, hevents, List.countP_append, countP_map_admission]
  · rw [hplanned] at hlt
    exact hfailed (Nat.ne_of_lt hlt)

/-- What is left of a pass over a campaign once its repositories are known. -/
def afterDiscovery (settings : Settings) (campaign : Campaign) (correlation : Uid) (now : Instant)
    (units : List WorkUnit) (repositories : List String) : Pass Action :=
  match Partition.batches repositories campaign.spec.policy with
  | .error e => do
    reject settings campaign correlation now e
    throw e
  | .ok batches => admitAll settings campaign correlation now units batches

theorem afterDiscovery_of_error {repositories : List String} {e : Error}
    (h : Partition.batches repositories campaign.spec.policy = .error e) (settings : Settings)
    (correlation : Uid) (now : Instant) (units : List WorkUnit) :
    afterDiscovery settings campaign correlation now units repositories =
      (reject settings campaign correlation now e >>= fun _ => throw e) := by
  unfold afterDiscovery
  rw [h]

theorem afterDiscovery_of_ok {repositories : List String}
    (h : Partition.batches repositories campaign.spec.policy = .ok batches) (settings : Settings)
    (correlation : Uid) (now : Instant) (units : List WorkUnit) :
    afterDiscovery settings campaign correlation now units repositories =
      admitAll settings campaign correlation now units batches := by
  unfold afterDiscovery
  rw [h]

/-- A pass over a campaign that is not suspended, once it has listed its work units. -/
theorem perform_passOver_listed (settings : Settings) (correlation : Uid) (now : Instant)
    {units : List WorkUnit} (hactive : campaign.spec.suspended = false)
    (hunits : (scene.store.list .workUnit (unitFilter campaign)).mapM Resource.decode = .ok units) :
    (passOver settings campaign correlation now).perform scene =
      (afterDiscovery settings campaign correlation now units
        ((Keyed.find? campaign.key scene.repositories).getD [])).perform scene := by
  have hlist : (list (unitFilter campaign) : Pass (List WorkUnit)).perform scene =
      (.ok units, scene) := by
    rw [perform_list]
    exact congrArg (·.mapError Error.store, scene) hunits
  unfold passOver
  rw [perform_bind_ok hlist]
  simp only [hactive, Bool.false_eq_true, if_false]
  rw [perform_bind_ok (perform_discover ..)]
  rfl

theorem perform_passOver (settings : Settings) (correlation : Uid) (now : Instant)
    (hs : scene.store.Reached)
    (hcampaign : scene.store.campaign? campaign.key = some campaign)
    (hdel : campaign.metadata.isDeleting = false) (hactive : campaign.spec.suspended = false) :
    ∃ result after, (passOver settings campaign correlation now).perform scene = (result, after) ∧
      Solo campaign.key ((Keyed.find? campaign.key scene.repositories).getD []) now scene result
        after := by
  generalize hrepositories : (Keyed.find? campaign.key scene.repositories).getD [] = repositories
  cases hunits : ((scene.store.list .workUnit (unitFilter campaign)).mapM Resource.decode :
    Except StoreError (List WorkUnit)) with
  | error e =>
    have hlist : (list (unitFilter campaign) : Pass (List WorkUnit)).perform scene =
        (.error (.store e), scene) := by
      rw [perform_list]
      exact congrArg (·.mapError Error.store, scene) hunits
    unfold passOver
    rw [perform_bind_error hlist]
    refine ⟨_, _, rfl, .of_idle ?_ rfl rfl⟩
    simp only [Store.survey, hcampaign, hdel, hunits, Bool.false_eq_true, if_false]
  | ok units =>
    rw [perform_passOver_listed settings correlation now hactive hunits, hrepositories]
    cases hbatches : Partition.batches repositories campaign.spec.policy with
    | error e =>
      have hsurvey := Store.survey_eq_rejected.2 ⟨hcampaign, hdel, ⟨units, hunits⟩, hbatches⟩
      obtain ⟨s', version, hreject, halike, hcampaign'⟩ :=
        perform_reject settings correlation now hs hcampaign e
      rw [afterDiscovery_of_error hbatches, perform_bind_ok hreject]
      exact ⟨_, _, rfl, .of_rejected hsurvey ⟨⟨version, hcampaign'⟩, halike⟩ rfl fun _ => rfl⟩
    | ok batches =>
      rw [afterDiscovery_of_ok hbatches]
      cases hreadable : scene.store.isReadable (documentSlot campaign) with
      | false =>
        obtain ⟨e, hput⟩ := perform_putDocument_error settings batches hreadable
        unfold admitAll
        rw [perform_bind_error hput]
        refine ⟨_, _, rfl, .of_idle ?_ rfl rfl⟩
        simp only [Store.survey, hcampaign, hdel, hunits, hbatches, hreadable, Bool.false_eq_true,
          if_false]
      | true =>
        have hsurvey :=
          Store.survey_eq_admits.2 ⟨hcampaign, hdel, hunits, hbatches, hreadable⟩
        obtain ⟨result, after, hadmit, hadmitted, hevents, hresult⟩ :=
          perform_admitAll settings correlation now batches hs hcampaign hunits hreadable
        exact ⟨_, _, hadmit, .of_admits hsurvey hadmitted hevents fun hne => by
          rwa [if_neg hne] at hresult⟩

/-- A pass alone over a campaign that is not suspended. -/
theorem perform_pass (settings : Settings) (key : Key) (now : Instant) (hs : scene.store.Reached)
    (hactive : ∀ c, scene.store.campaign? key = some c → c.spec.suspended = false) :
    ∃ result after, (pass settings key now).perform scene = (result, after) ∧
      Solo key ((Keyed.find? key scene.repositories).getD []) now scene result after := by
  have hidle : (∀ campaign, scene.store.campaign? key = some campaign →
      campaign.metadata.isDeleting) → scene.store.survey key
        ((Keyed.find? key scene.repositories).getD []) = .idle := by
    intro h
    unfold Store.survey
    split
    · rfl
    · next campaign hcampaign => rw [if_pos (h campaign hcampaign)]
  unfold pass
  cases found : scene.store.find? { kind := Resource.kind Campaign, key } with
  | none =>
    rw [perform_bind_ok (perform_find?_none found)]
    refine ⟨_, _, rfl, .of_idle (hidle fun campaign h => ?_) rfl rfl⟩
    obtain ⟨o, found', -⟩ := Store.campaign?_eq_some.1 h
    cases found.symm.trans found'
  | some o =>
    cases hdecode : (Resource.decode o : Except StoreError Campaign) with
    | error e =>
      rw [perform_bind_error (perform_find?_error found hdecode)]
      refine ⟨_, _, rfl, .of_idle (hidle fun campaign h => ?_) rfl rfl⟩
      obtain ⟨o', found', hdecode'⟩ := Store.campaign?_eq_some.1 h
      cases found.symm.trans found'
      cases hdecode.symm.trans hdecode'
    | ok campaign =>
      have hcampaign : scene.store.campaign? key = some campaign :=
        Store.campaign?_eq_some.2 ⟨o, found, hdecode⟩
      obtain rfl : campaign.key = key := Store.campaign_key_eq hs hcampaign
      rw [perform_bind_ok (perform_find?_ok found hdecode)]
      dsimp only
      cases hdel : campaign.metadata.isDeleting with
      | true =>
        refine ⟨_, _, rfl, .of_idle (hidle fun campaign' h => ?_) rfl rfl⟩
        cases hcampaign.symm.trans h
        exact hdel
      | false =>
        simp only [Bool.false_eq_true, if_false]
        rw [perform_bind_ok (perform_correlate ..)]
        let scene' : Scene := { scene with correlations := scene.correlations + 1 }
        have hs' : scene'.store.Reached := hs
        obtain ⟨result, after, hpass, hsolo⟩ := perform_passOver settings
          (.issued (scene.correlations + 1)) now hs' hcampaign hdel (hactive campaign hcampaign)
        exact ⟨result, after, hpass, hsolo.leaves, hsolo.announced, hsolo.failed⟩

/-- A measurement is not seen. -/
theorem run_reconcile (settings : Settings) (key : Key) (now : Instant) (scene : Scene) :
    (reconcile settings key now).run Scene.answer scene =
      (pass settings key now).perform scene := by
  unfold reconcile
  rw [Program.run_bind]
  show Program.run Scene.answer _ _ = (pass settings key now).run.run Scene.answer scene
  generalize (pass settings key now).run.run Scene.answer scene = outcome
  obtain ⟨result, after⟩ := outcome
  cases result <;> rfl

end Admission
end CampaignControl
