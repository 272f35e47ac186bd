import CampaignControl.Proofs.Admission.Outline
import CampaignControl.Proofs.Admission.Plan
import CampaignControl.Proofs.Concurrency.History
import CampaignControl.Proofs.Store.Listing

/-!
# The requests of an admission pass

All that an admission pass over the campaign at a key requests, and what it has been answered before
that (`Admission.Asks`, `Admission.reconcile_heeds`). The pass has read the campaign, so that the
objects it creates are of this campaign; the batches it works with are those of what it has
discovered; and when it comes to its work units there is a configuration document.
-/

namespace CampaignControl

/-- Whether a request is for the repositories of a campaign. -/
def Request.discovers : Request → Bool
  | .discover _ => true
  | _ => false

/-- The discovery of repositories. -/
def Exchange.discovery (campaign : Campaign) (repositories : List String) (s : Store) :
    Exchange where
  request := .discover campaign
  reply := .ok repositories
  before := s
  after := s

/-- The repositories that have been discovered. -/
def Exchange.discovered? : Exchange → Option (List String)
  | { request := .discover _, reply := .ok repositories, .. } => some repositories
  | _ => none

namespace Admission

/-- The slot of the campaign at a key. -/
abbrev campaignSlot (key : Key) : Slot := { kind := .campaign, key }

/-- The slot of the configuration document of the campaign at a key. -/
abbrev batchesSlot (key : Key) : Slot where
  kind := .configDocument
  key := { space := key.space, name := Naming.configDocument key.name }

/-- The slot of the work unit with an index of the campaign at a key. -/
abbrev indexSlot (key : Key) (index : Nat) : Slot where
  kind := .workUnit
  key := { space := key.space, name := Naming.workUnit key.name index }

/-- A pass has read the campaign at a key. -/
def Knows (key : Key) (campaign : Campaign) (past : List Exchange) : Prop :=
  campaign.key = key ∧ ∃ s object, s.find? (campaignSlot key) = some object ∧
    .read (campaignSlot key) object s ∈ past ∧ Resource.decode object = .ok campaign

/-- A pass has come to these batches of a campaign. -/
def Cuts (campaign : Campaign) (batches : List Batch) (past : List Exchange) : Prop :=
  ∃ s repositories, .discovery campaign repositories s ∈ past ∧
    Partition.batches repositories campaign.spec.policy = .ok batches

/-- A pass has been answered these work units of a campaign. -/
def Listed (campaign : Campaign) (units : List WorkUnit) (past : List Exchange) : Prop :=
  ∃ e ∈ past, (e.before.list .workUnit (unitFilter campaign)).mapM Resource.decode = .ok units

/-- There was something in a slot after an exchange. -/
def Occupied (slot : Slot) (past : List Exchange) : Prop := ∃ e ∈ past, e.after.find? slot ≠ none

/-- A batch of a campaign was covered by the work units that have been listed, or there was
something in the slot of its work unit. -/
def Served (campaign : Campaign) (index : Nat) (batch : Batch) (past : List Exchange) : Prop :=
  (∃ units, Listed campaign units past ∧ isCovered units index batch) ∨
    Occupied (indexSlot campaign.key index) past

/-- No work unit that has been listed covered a batch. -/
def Uncovered (campaign : Campaign) (index : Nat) (batch : Batch) (past : List Exchange) : Prop :=
  ∃ units, Listed campaign units past ∧ isCovered units index batch = false

/-- No repositories have been discovered. -/
def Undiscovered (past : List Exchange) : Prop :=
  ∀ e ∈ past, e.request.discovers = false

/-- There was an object in a slot at an exchange that a filter selects. -/
def Selected (filter : Filter) (slot : Slot) (past : List Exchange) : Prop :=
  ∃ e ∈ past, ∃ o, e.before.find? slot = some o ∧ filter.selects o.metadata

/-- What a pass over the campaign at a key requests after what it has been answered. -/
inductive Asks (key : Key) (past : List Exchange) : Request → Prop where
  | get (kind : Kind) (k : Key) : Asks key past (.store (.get kind k))
  | list (kind : Kind) (filter : Filter) : Asks key past (.store (.list kind filter))
  | correlate : Asks key past .correlate
  | measure (m : Measurement) : Asks key past (.measure m)
  /-- Repositories are discovered once. -/
  | discover {campaign : Campaign} : Knows key campaign past → Undiscovered past →
    Asks key past (.discover campaign)
  | publish {e : Event} : (∀ index, e.payload ≠ .adopted index) → Asks key past (.publish e)
  /-- Something has been found where a work unit was to be created. -/
  | adopt {e : Event} {index : Nat} : e.payload = .adopted index →
    e.entity = { space := key.space, name := Naming.workUnit key.name index } →
    Occupied { kind := .workUnit, key := e.entity } past → Asks key past (.publish e)
  | drain {campaign : Campaign} {k : Key} : Knows key campaign past →
    Selected (unitFilter campaign) { kind := .workUnit, key := k } past →
    Asks key past (.store (.delete .workUnit k .background))
  | createDocument {campaign : Campaign} {batches : List Batch} : Knows key campaign past →
    Cuts campaign batches past →
    Asks key past (.store (.create .configDocument (Resource.encode (document campaign batches))))
  | refresh {campaign : Campaign} {batches : List Batch} {s : Store} {object : Object}
    {current changed : ConfigDocument} : Knows key campaign past → Cuts campaign batches past →
    .read (batchesSlot key) object s ∈ past → Resource.decode object = .ok current →
    Admission.refresh (document campaign batches) current = (changed, some ()) →
    Asks key past (.store (.update .configDocument (Resource.encode changed)))
  /-- All batches in front of this one have been served. -/
  | createUnit {campaign : Campaign} {batches : List Batch} {index : Nat} {batch : Batch}
    (now : Instant) : Knows key campaign past → Cuts campaign batches past →
    Occupied (batchesSlot key) past → batches[index]? = some batch →
    (∀ i other, i < index → batches[i]? = some other → Served campaign i other past) →
    Uncovered campaign index batch past →
    Asks key past
      (.store (.create .workUnit (Resource.encode (workUnit campaign index batch now))))
  | report {s : Store} {object : Object} {current : Campaign} (status : Campaign.Status) :
    .read (campaignSlot key) object s ∈ past → Resource.decode object = .ok current →
    Asks key past (.store (.update .campaign (Resource.encode { current with status })))

variable {key : Key} {campaign : Campaign} {batches : List Batch} {past past' : List Exchange}
  {slot : Slot} {filter : Filter}

theorem Knows.mono (h : Knows key campaign past) (hsub : past ⊆ past') :
    Knows key campaign past' := by
  obtain ⟨hkey, s, object, hfind, hread, hdecode⟩ := h
  exact ⟨hkey, s, object, hfind, hsub hread, hdecode⟩

theorem Cuts.mono (h : Cuts campaign batches past) (hsub : past ⊆ past') :
    Cuts campaign batches past' := by
  obtain ⟨s, repositories, hdiscovery, hbatches⟩ := h
  exact ⟨s, repositories, hsub hdiscovery, hbatches⟩

theorem Listed.mono {units : List WorkUnit} (h : Listed campaign units past)
    (hsub : past ⊆ past') : Listed campaign units past' := by
  obtain ⟨e, he, hunits⟩ := h
  exact ⟨e, hsub he, hunits⟩

theorem Occupied.mono (h : Occupied slot past) (hsub : past ⊆ past') : Occupied slot past' := by
  obtain ⟨e, he, hthere⟩ := h
  exact ⟨e, hsub he, hthere⟩

theorem Undiscovered.nil : Undiscovered [] := fun _ h => absurd h List.not_mem_nil

theorem Selected.mono (h : Selected filter slot past) (hsub : past ⊆ past') :
    Selected filter slot past' := by
  obtain ⟨e, he, hselected⟩ := h
  exact ⟨e, hsub he, hselected⟩

/-- The campaign that a pass knows was stored with its identity. -/
theorem Knows.exists_stored (h : Knows key campaign past) :
    ∃ e ∈ past, ∃ o, e.before.find? (campaignSlot key) = some o ∧
      o.metadata = campaign.metadata := by
  obtain ⟨-, s, object, hfind, hread, hdecode⟩ := h
  exact ⟨_, hread, object, hfind, (Resource.metadata_of_decode hdecode).symm⟩

/-- Every work unit of a plan is for one of the batches that are not covered. -/
theorem exists_batch_of_mem_create {units : List WorkUnit} {now : Instant} {u : WorkUnit}
    (h : u ∈ (plan campaign units batches now).create) :
    ∃ index batch, batches[index]? = some batch ∧ isCovered units index batch = false ∧
      u = workUnit campaign index batch now := by
  unfold plan at h
  split at h
  · cases h
  · obtain ⟨⟨index, batch⟩, hmem, rfl⟩ := List.mem_map.1 h
    obtain ⟨hbatch, hcovered⟩ := mem_uncovered_iff.1 (List.mem_of_mem_take hmem)
    exact ⟨index, batch, hbatch, hcovered, rfl⟩

/-- What a pass writes back is its campaign or the document of it, with the metadata of what it has
read. -/
theorem Asks.exists_read {kind : Kind} {object : Object}
    (h : Asks key past (.store (.update kind object))) :
    ∃ k s o, .read { kind, key := k } o s ∈ past ∧ object.metadata = o.metadata ∧
      ({ kind, key := k } = campaignSlot key ∨ { kind, key := k } = batchesSlot key) := by
  cases h with
  | @refresh campaign batches s object current changed _ _ hread hdecode hchange =>
    have hmetadata := metadata_refresh (document campaign batches) current
    rw [hchange] at hmetadata
    exact ⟨_, s, object, hread, hmetadata.trans (Resource.metadata_of_decode hdecode), .inr rfl⟩
  | @report s object current status hread hdecode =>
    have hmetadata : Resource.metadata current = object.metadata :=
      Resource.metadata_of_decode hdecode
    exact ⟨_, s, object, hread, hmetadata, .inl rfl⟩

/-- A pass writes nothing else than its campaign and the document of it. -/
theorem Asks.slot_eq {kind : Kind} {object : Object} {s : Store}
    (h : Asks key past (.store (.update kind object))) (hpast : Genuine past s) :
    ({ kind, key := object.key } : Slot) = campaignSlot key ∨
      ({ kind, key := object.key } : Slot) = batchesSlot key := by
  obtain ⟨k, earlier, o, hread, hmetadata, hslot⟩ := h.exists_read
  have hprecedes := hpast _ hread
  have hkey : object.key = k :=
    (congrArg Metadata.key hmetadata).trans (hprecedes.sound.key_eq hprecedes.find?)
  rw [hkey]
  exact hslot

/-- What a pass replaces has the same metadata. -/
theorem Asks.metadata_eq {kind : Kind} {old object : Object} {s : Store}
    (h : Asks key past (.store (.update kind object))) (hpast : Genuine past s)
    (hold : s.find? { kind, key := object.key } = some old)
    (hv : object.metadata.version = old.metadata.version) : object.metadata = old.metadata := by
  obtain ⟨k, earlier, o, hread, hmetadata, -⟩ := h.exists_read
  have heq := (hpast _ hread).eq_of_write (congrArg Metadata.key hmetadata)
    (congrArg Metadata.version hmetadata) hold hv
  rw [heq, hmetadata]

/-! ## The parts of a pass -/

section
variable (settings : Settings) (correlation : Uid) (now : Instant)

theorem modifyCampaign_heeds {change : Campaign → Campaign × Option Unit}
    (hchange : ∀ a, ∃ status, (change a).1 = { a with status }) (hkey : campaign.key = key) :
    (modifyCampaign settings campaign change).Heeds (Asks key) (fun _ past' => past ⊆ past')
      past := by
  subst hkey
  unfold modifyCampaign
  apply Pass.Heeds.bind
  apply Pass.Heeds.modify
  · intro past' _
    exact .get ..
  · intro past' s object current changed note _ hread hdecode hnote
    obtain ⟨status, h⟩ := hchange current
    rw [hnote] at h
    subst h
    exact .report status hread hdecode
  · exact fun hsub => .pure hsub
  · exact fun hsub _ _ _ _ _ => .pure hsub
  · exact fun hsub _ _ _ => .pure hsub

theorem writeStatus_heeds (outcome : Outcome) (admittedAt : Option Instant)
    (hkey : campaign.key = key) :
    (writeStatus settings campaign now outcome admittedAt).Heeds (Asks key)
      (fun _ past' => past ⊆ past') past :=
  modifyCampaign_heeds settings (fun _ => ⟨_, rfl⟩) hkey

theorem reject_heeds (e : Error) (hkey : campaign.key = key) :
    (reject settings campaign correlation now e).Heeds (Asks key) (fun _ _ => True) past := by
  unfold reject
  apply Pass.Heeds.bind
  apply Pass.Heeds.outcome
  apply Program.Heeds.mono (modifyCampaign_heeds settings (fun _ => ⟨_, rfl⟩) hkey)
  intro _ _ _
  exact .publish (.publish fun _ h => by cases h) fun _ => trivial

theorem drainAll_heeds (hknows : Knows key campaign past) {keys : List Key}
    (hkeys : ∀ k ∈ keys, Selected (unitFilter campaign) { kind := .workUnit, key := k } past) :
    (drainAll campaign correlation keys).Heeds (Asks key) (fun _ past' => past ⊆ past') past := by
  induction keys generalizing past with
  | nil => exact .pure (List.Subset.refl _)
  | cons k rest ih =>
    have hrest : ∀ {past'}, past ⊆ past' → (drainAll campaign correlation rest).Heeds (Asks key)
        (fun _ past'' => past ⊆ past'') past' := by
      intro past' hsub
      apply Pass.Heeds.mono (ih (hknows.mono hsub)
        fun k' hk' => (hkeys k' (List.mem_cons_of_mem _ hk')).mono hsub)
      exact fun _ _ hsub' => List.Subset.trans hsub hsub'
    unfold drainAll
    apply Pass.Heeds.bind
    apply Pass.Heeds.delete (.drain hknows (hkeys k List.mem_cons_self))
    intro past' reply hsub
    cases reply with
    | ok =>
      apply Pass.Heeds.bind
      apply Pass.Heeds.publish (.publish fun _ h => by cases h)
      exact fun hsub' => hrest (List.Subset.trans hsub hsub')
    | error e =>
      dsimp only
      split
      · exact hrest hsub
      · exact .bind (.throw _)

theorem drain_heeds (hknows : Knows key campaign past) {units : List WorkUnit}
    (hunits : ∀ u ∈ units,
      Selected (unitFilter campaign) { kind := .workUnit, key := u.key } past) :
    (drain campaign correlation now units).Heeds (Asks key) (fun _ past' => past ⊆ past') past := by
  have hkeys : ∀ k ∈ (plan campaign units [] now).drain,
      Selected (unitFilter campaign) { kind := .workUnit, key := k } past := by
    intro k hk
    unfold plan at hk
    split at hk
    · obtain ⟨u, hu, rfl⟩ := List.mem_map.1 hk
      exact hunits u (List.mem_filter.1 hu).1
    · cases hk
  unfold drain
  apply Pass.Heeds.bind
  apply (drainAll_heeds correlation hknows hkeys).mono
  intro _ past' hsub
  apply Pass.Heeds.bind
  apply Pass.Heeds.measure (.measure _)
  exact fun hsub' => .pure (List.Subset.trans hsub hsub')

/-- There is a configuration document when it has been put. -/
theorem putDocument_heeds (hknows : Knows key campaign past) (hcuts : Cuts campaign batches past) :
    (putDocument settings campaign batches).Heeds (Asks key)
      (fun _ past' => past ⊆ past' ∧ Occupied (batchesSlot key) past') past := by
  have hslot : Resource.slot (document campaign batches) = batchesSlot key := by
    obtain ⟨rfl, -⟩ := hknows
    rfl
  unfold putDocument
  apply Pass.Heeds.bind
  apply Pass.Heeds.create (.createDocument hknows hcuts)
  intro past' reply hsub hthere
  rw [hslot] at hthere
  cases reply with
  | ok a => exact .pure ⟨hsub, hthere nofun⟩
  | error e =>
    dsimp only
    split
    · next hexists =>
      have hoccupied : Occupied (batchesSlot key) past' :=
        hthere fun e' he' => by cases he'; exact hexists
      have hdone : ∀ {past''}, past' ⊆ past'' →
          past ⊆ past'' ∧ Occupied (batchesSlot key) past'' :=
        fun hsub' => ⟨List.Subset.trans hsub hsub', hoccupied.mono hsub'⟩
      have hplace : (document campaign batches).metadata.key = (batchesSlot key).key :=
        congrArg Slot.key hslot
      rw [hplace]
      apply Pass.Heeds.bind
      apply Pass.Heeds.modify
      · exact fun _ => .get ..
      · intro past'' s object current changed note hsub' hread hdecode hchange
        have hsub' := List.Subset.trans hsub hsub'
        exact .refresh (hknows.mono hsub') (hcuts.mono hsub') hread hdecode hchange
      · exact fun hsub' => .pure (hdone hsub')
      · exact fun hsub' _ _ _ _ _ => .pure (hdone hsub')
      · exact fun hsub' _ _ _ => .pure (hdone hsub')
    · exact .throw _

/-- Where the work units at the front of a plan have been found or created, the pass goes on with
the others. -/
theorem createAll_heeds (hknows : Knows key campaign past) (hcuts : Cuts campaign batches past)
    (hthere : Occupied (batchesSlot key) past) {listed : List WorkUnit}
    (hlisted : Listed campaign listed past) (outcome : Outcome) {front units : List WorkUnit}
    (hplan : (plan campaign listed batches now).create = front ++ units)
    (hfront : ∀ u ∈ front, Occupied (Resource.slot u) past) :
    (createAll campaign correlation outcome units).Heeds (Asks key) (fun _ _ => True) past := by
  induction units generalizing past outcome front with
  | nil => exact .pure trivial
  | cons u rest ih =>
    obtain ⟨index, batch, hbatch, hcovered, rfl⟩ :=
      exists_batch_of_mem_create (hplan ▸ List.mem_append_right front List.mem_cons_self)
    have hrest : ∀ {past'} (outcome : Outcome), past ⊆ past' →
        Occupied (Resource.slot (workUnit campaign index batch now)) past' →
        (createAll campaign correlation outcome rest).Heeds (Asks key) (fun _ _ => True) past' := by
      intro past' outcome hsub hoccupied
      apply ih (hknows.mono hsub) (hcuts.mono hsub) (hthere.mono hsub) (hlisted.mono hsub) outcome
        (hplan.trans (List.append_cons ..))
      intro u' hu'
      rcases List.mem_append.1 hu' with hu' | hu'
      · exact (hfront u' hu').mono hsub
      · exact List.mem_singleton.1 hu' ▸ hoccupied
    have hserved : ∀ i other, i < index → batches[i]? = some other →
        Served campaign i other past := by
      intro i other hi hother
      rcases covered_or_planned hplan hi hother with hcovered | hmem
      · exact .inl ⟨listed, hlisted, hcovered⟩
      · exact .inr (hfront _ hmem)
    have hplace : (workUnit campaign index batch now).key =
        { space := key.space, name := Naming.workUnit key.name index } := by
      obtain ⟨rfl, -⟩ := hknows
      rfl
    unfold createAll
    apply Pass.Heeds.bind
    apply Pass.Heeds.create
      (.createUnit now hknows hcuts hthere hbatch hserved ⟨listed, hlisted, hcovered⟩)
    intro past' reply hsub hfound
    cases reply with
    | ok a =>
      have hoccupied : Occupied _ past' := hfound fun e' he' => by cases he'
      apply Pass.Heeds.bind
      apply Pass.Heeds.measure (.measure _)
      intro past₁ hsub₁
      apply Pass.Heeds.bind
      apply Pass.Heeds.publish (.publish fun _ h => by cases h)
      intro past₂ hsub₂
      have hlater := List.Subset.trans hsub₁ hsub₂
      exact hrest _ (List.Subset.trans hsub hlater) (hoccupied.mono hlater)
    | error e =>
      dsimp only
      split
      · next hexists =>
        have hoccupied : Occupied _ past' := hfound fun e' he' => by cases he'; exact hexists
        apply Pass.Heeds.bind
        apply Pass.Heeds.publish
        · exact .adopt rfl hplace hoccupied
        · exact fun hsub₁ => hrest _ (List.Subset.trans hsub hsub₁) (hoccupied.mono hsub₁)
      · exact .pure trivial

theorem admitAll_heeds (hknows : Knows key campaign past) (hcuts : Cuts campaign batches past)
    {units : List WorkUnit} (hlisted : Listed campaign units past) :
    (admitAll settings campaign correlation now units batches).Heeds (Asks key) (fun _ _ => True)
      past := by
  unfold admitAll
  apply Pass.Heeds.bind
  apply (putDocument_heeds settings hknows hcuts).mono
  intro _ past₁ ⟨hsub₁, hthere⟩
  apply Pass.Heeds.bind
  apply (createAll_heeds correlation now (hknows.mono hsub₁) (hcuts.mono hsub₁) hthere
    (hlisted.mono hsub₁) _ (List.nil_append _).symm fun _ h => absurd h List.not_mem_nil).mono
  intro ⟨outcome, failure⟩ past₂ _
  apply Pass.Heeds.bind
  apply Pass.Heeds.measure (.measure _)
  intro past₃ _
  apply Pass.Heeds.bind
  apply (writeStatus_heeds settings now outcome (some now) hknows.1).mono
  intro _ _ _
  cases failure with
  | none => exact .pure trivial
  | some e => exact .throw _

/-- A work unit that is listed is stored, and has been selected. -/
theorem exists_listed {s : Store} (hs : s.Sound) {units : List WorkUnit}
    (hunits : (s.list .workUnit filter).mapM Resource.decode = .ok units) {u : WorkUnit}
    (hu : u ∈ units) :
    ∃ o, s.find? { kind := .workUnit, key := u.key } = some o ∧ filter.selects o.metadata ∧
      Resource.decode o = .ok u := by
  obtain ⟨o, ho, hdecode⟩ := exists_of_mem_mapM hunits hu
  obtain ⟨hfind, hselects⟩ := (Store.mem_list_iff hs).1 ho
  have hkey : u.key = o.key := Resource.key_of_decode hdecode
  exact ⟨o, hkey ▸ hfind, hselects, hdecode⟩

theorem passOver_heeds (hknows : Knows key campaign past) (hfresh : Undiscovered past) :
    (passOver settings campaign correlation now).Heeds (Asks key) (fun _ _ => True) past := by
  have hlist : (Pass.list (unitFilter campaign) : Pass (List WorkUnit)).Heeds
      (fun past r => Asks key past r ∧ r.discovers = false)
      (fun units past' => past ⊆ past' ∧ ∃ e ∈ past', e.before.Sound ∧
        (e.before.list .workUnit (unitFilter campaign)).mapM Resource.decode = .ok units) past := by
    apply Pass.Heeds.list ⟨.list .., rfl⟩
    intro past₁ e units hsub₁ he _ hs hunits
    exact ⟨hsub₁, e, he, hs, hunits⟩
  unfold passOver
  apply Pass.Heeds.bind
  apply (hlist.all hfresh).mono
  intro units past₁ ⟨⟨hsub₁, e, he, hs, hunits⟩, hfresh₁⟩
  split
  · have hselected : ∀ u ∈ units,
        Selected (unitFilter campaign) { kind := .workUnit, key := u.key } past₁ := by
      intro u hu
      obtain ⟨o, hfind, hselects, -⟩ := exists_listed hs hunits hu
      exact ⟨e, he, o, hfind, hselects⟩
    apply Pass.Heeds.bind
    apply (drain_heeds correlation now (hknows.mono hsub₁) hselected).mono
    intro outcome past₂ _
    apply Pass.Heeds.bind
    apply (writeStatus_heeds settings now outcome none hknows.1).mono
    exact fun _ _ _ => .pure trivial
  · apply Pass.Heeds.bind
    apply Pass.Heeds.lift
    apply Program.Heeds.request (.discover (hknows.mono hsub₁) hfresh₁)
    intro s s' reply _ hanswered
    have hsub₃ {e : Exchange} : past₁ ⊆ past₁ ++ [e] := Pass.Heeds.subset_append past₁ e
    have hsub₂ {e : Exchange} : past ⊆ past₁ ++ [e] := List.Subset.trans hsub₁ hsub₃
    cases reply with
    | error reason => exact .throw _
    | ok repositories =>
      dsimp only
      cases hbatches : Partition.batches repositories campaign.spec.policy with
      | error e =>
        apply Pass.Heeds.bind
        apply (reject_heeds settings correlation now e hknows.1).mono
        exact fun _ _ _ => .throw _
      | ok batches =>
        cases hanswered
        exact admitAll_heeds settings correlation now (hknows.mono hsub₂)
          ⟨s, repositories, Pass.Heeds.mem_append .., hbatches⟩ ⟨e, hsub₃ he, hunits⟩

theorem pass_heeds (hfresh : Undiscovered past) :
    (pass settings key now).Heeds (Asks key) (fun _ _ => True) past := by
  have hread : (Pass.find? key : Pass (Option Campaign)).Heeds
      (fun past r => Asks key past r ∧ r.discovers = false)
      (fun found past' => ∀ campaign, found = some campaign → Knows key campaign past') past := by
    apply Pass.Heeds.find? ⟨.get .., rfl⟩
    · intro past₁ s object campaign _ hread hs hfind hdecode _ heq
      cases heq
      have hkey : campaign.key = key := (Resource.key_of_decode hdecode).trans (hs.key_eq hfind)
      exact ⟨hkey, s, object, hfind, hread, hdecode⟩
    · exact fun _ _ h => absurd h (Option.some_ne_none _).symm
  unfold pass
  apply Pass.Heeds.bind
  apply (hread.all hfresh).mono
  intro found past₁ ⟨hknows, hfresh₁⟩
  cases found with
  | none => exact .pure trivial
  | some campaign =>
    dsimp only
    split
    · exact .pure trivial
    · apply Pass.Heeds.bind
      have hcorrelate : Pass.correlate.Heeds
          (fun past r => Asks key past r ∧ r.discovers = false)
          (fun _ past' => Knows key campaign past') past₁ :=
        .correlate ⟨.correlate, rfl⟩ fun _ hsub => (hknows campaign rfl).mono hsub
      apply (hcorrelate.all hfresh₁).mono
      exact fun correlation _ ⟨hknows₂, hfresh₂⟩ =>
        passOver_heeds settings correlation now hknows₂ hfresh₂

/-- An admission pass requests nothing else, counted or not. -/
theorem reconcile_heeds (hfresh : Undiscovered past) :
    (reconcile settings key now).Heeds (Asks key) (fun _ _ => True) past := by
  unfold reconcile
  apply Program.Heeds.bind
  apply Program.Heeds.mono (pass_heeds settings now hfresh)
  intro result past' _
  cases result with
  | ok action => exact trivial
  | error e =>
    apply Program.Heeds.bind
    exact .request (.measure _) fun _ _ => trivial

end
end Admission
end CampaignControl
