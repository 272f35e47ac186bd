import CampaignControl.Admission.Pass
import CampaignControl.Proofs.Concurrency.Contract

/-!
# The outline of an admission pass

What has to be shown of the single changes that an admission pass makes so that the pass as a
whole keeps a contract (`Admission.Outline`, `Admission.Outline.reconcile_keeps`). Between the
listing of the work units and the last creation the outline has an assertion on how many work
units may still be created. Others may work on the store at any time in between, so it has to
survive what they do.
-/

namespace CampaignControl
namespace Admission

/-- A campaign was stored at a key at some time. -/
def Seen (D I : Store → Prop) (key : Key) (campaign : Campaign) : Prop :=
  ∃ (s : Store) (object : Object), s.Sound ∧ D s ∧ I s ∧
    s.find? { kind := .campaign, key } = some object ∧ Resource.decode object = .ok campaign

variable {D I : Store → Prop} {c : Contract D I} {key : Key} {s : Store} {campaign : Campaign}

theorem Seen.key_eq (h : Seen D I key campaign) : campaign.key = key := by
  obtain ⟨s, object, hs, -, -, hfind, hdecode⟩ := h
  exact (Resource.key_of_decode hdecode).trans (hs.key_eq hfind)

/-- What the changes of an admission pass over the campaign at a key come to, under a contract.
`Room campaign n` says that so many work units may still be created for a campaign. -/
structure Outline (c : Contract D I) (key : Key) (Room : Campaign → Nat → Store → Prop) :
    Prop where
  room_later : ∀ {s s' campaign n}, c.Later s s' → Room campaign n s → Room campaign n s'
  room_of_succ : ∀ {s campaign n}, Room campaign (n + 1) s → Room campaign n s
  room_of_list : ∀ {s campaign units} (batches : List Batch) (now : Instant), s.Sound → D s →
    I s → Seen D I key campaign →
    (s.list .workUnit (unitFilter campaign)).mapM Resource.decode = .ok units →
    Room campaign (plan campaign units batches now).create.length s
  /-- A configuration document is created. -/
  create_document : ∀ {s k object campaign n} (now : Instant), s.Sound → I s →
    s.find? { kind := .configDocument, key := k } = none → object.key = k → Room campaign n s →
    I (s.withNew now { kind := .configDocument, key := k } object) ∧
      c.guar s (s.withNew now { kind := .configDocument, key := k } object) ∧
      Room campaign n (s.withNew now { kind := .configDocument, key := k } object)
  /-- A configuration document or a campaign is changed. -/
  change : ∀ {s slot old object}, slot.kind = .configDocument ∨ slot.kind = .campaign → s.Sound →
    I s → s.find? slot = some old → object.key = slot.key →
    I (s.withRevised slot old object) ∧ c.guar s (s.withRevised slot old object) ∧
      ∀ {s' campaign n}, (s.withRevised slot old object).Deletions s' → Room campaign n s →
        Room campaign n s'
  create_unit : ∀ {s campaign n} (created : Instant) (index : Nat) (batch : Batch) (now : Instant),
    s.Sound → I s → Seen D I key campaign → Room campaign (n + 1) s →
    s.find? (Resource.slot (workUnit campaign index batch now)) = none →
    I (s.withNew created (Resource.slot (workUnit campaign index batch now))
        (Resource.encode (workUnit campaign index batch now))) ∧
      c.guar s (s.withNew created (Resource.slot (workUnit campaign index batch now))
        (Resource.encode (workUnit campaign index batch now))) ∧
      Room campaign n (s.withNew created (Resource.slot (workUnit campaign index batch now))
        (Resource.encode (workUnit campaign index batch now)))

/-- Every work unit that a plan creates is one for a batch of the campaign. -/
theorem exists_of_mem_create {units : List WorkUnit} {batches : List Batch} {now : Instant}
    {u : WorkUnit} (h : u ∈ (plan campaign units batches now).create) :
    ∃ index batch, u = workUnit campaign index batch now := by
  unfold plan at h
  split at h
  · cases h
  · obtain ⟨⟨index, batch⟩, -, rfl⟩ := List.mem_map.1 h
    exact ⟨index, batch, rfl⟩

/-- A configuration document keeps its metadata when it gets other contents. -/
theorem metadata_refresh (fresh current : ConfigDocument) :
    (refresh fresh current).1.metadata = current.metadata := by
  unfold refresh
  split <;> rfl

theorem batches_refresh {fresh current changed : ConfigDocument}
    (h : refresh fresh current = (changed, some ())) : changed.batches = fresh.batches := by
  unfold refresh at h
  split at h
  · cases h
  · cases h
    rfl

theorem eq_of_refresh {fresh current same : ConfigDocument}
    (h : refresh fresh current = (same, none)) : same = current := by
  unfold refresh at h
  split at h
  · cases h
    rfl
  · cases h

namespace Outline

variable {Room : Campaign → Nat → Store → Prop} (o : Outline c key Room)
  (settings : Settings) (correlation : Uid) (now : Instant)

theorem drainAll_keeps (keys : List Key) :
    (drainAll campaign correlation keys).Keeps c (fun _ _ => True) s := by
  induction keys generalizing s with
  | nil => exact .pure trivial
  | cons k rest ih =>
    unfold drainAll
    refine .bind (.delete fun {s₁ s₂ reply} _ _ _ => ?_)
    cases reply with
    | ok => exact .bind (.publish _ fun _ => ih)
    | error e =>
      dsimp only
      split
      · exact ih
      · exact .bind (.throw _)

theorem drain_keeps (units : List WorkUnit) :
    (drain campaign correlation now units).Keeps c (fun _ _ => True) s := by
  unfold drain
  refine .bind ((drainAll_keeps correlation _).mono fun _ _ _ => ?_)
  exact .bind (.measure _ fun _ => .pure trivial)

include o

theorem modifyCampaign_keeps (change : Campaign → Campaign × Option Unit)
    (hmetadata : ∀ current, (change current).1.metadata = current.metadata) :
    (modifyCampaign settings campaign change).Keeps c (fun _ _ => True) s := by
  unfold modifyCampaign
  have hkeeps : Pass.KeepsPlace change := .of_metadata hmetadata
  refine .bind (.modify hkeeps (fun _ _ => .pure trivial) (fun _ _ _ _ => .pure trivial)
    fun {s₁ object current changed note} hlater hfind hdecode hchange => ?_)
  have hkey : (Resource.encode changed).key = object.key :=
    (hkeeps hchange).1.trans (Resource.key_of_decode hdecode)
  obtain ⟨hinv, hguar, -⟩ := o.change (.inr rfl) hlater.sound hlater.inv hfind
    (hkey.trans (hlater.sound.key_eq hfind))
  exact ⟨hinv, hguar, fun _ _ => .pure trivial⟩

theorem writeStatus_keeps (outcome : Outcome) (admittedAt : Option Instant) :
    (writeStatus settings campaign now outcome admittedAt).Keeps c (fun _ _ => True) s :=
  o.modifyCampaign_keeps settings _ fun _ => rfl

theorem reject_keeps (e : Error) :
    (reject settings campaign correlation now e).Keeps c (fun _ _ => True) s := by
  unfold reject
  refine .bind (.outcome (Program.Keeps.mono
    (o.modifyCampaign_keeps settings _ fun _ => rfl) fun _ _ _ => ?_))
  exact .publish _ fun _ => trivial

theorem putDocument_keeps {n : Nat} (batches : List Batch) (hroom : Room campaign n s) :
    (putDocument settings campaign batches).Keeps c (fun _ s => Room campaign n s) s := by
  have hkeeps : Pass.KeepsPlace (refresh (document campaign batches)) :=
    .of_metadata (metadata_refresh _)
  have hkey : (Resource.encode (document campaign batches)).key =
      Resource.key (document campaign batches) := rfl
  unfold putDocument
  refine .bind (.create (fun created hlater hnone => ?_) fun {s₁} e hlater => ?_)
  · obtain ⟨hinv, hguar, hroom⟩ := o.create_document created hlater.sound hlater.inv hnone hkey
      (o.room_later hlater hroom)
    exact ⟨hinv, hguar, .pure hroom⟩
  · have hroom := o.room_later hlater hroom
    dsimp only
    split
    · refine .bind (.modify hkeeps (fun hlater _ => .pure (o.room_later hlater hroom))
        (fun hlater _ _ _ => .pure (o.room_later hlater hroom))
        fun {s₂ object current changed note} hlater hfind hdecode hchange => ?_)
      have hkey : (Resource.encode changed).key = object.key :=
        (hkeeps hchange).1.trans (Resource.key_of_decode hdecode)
      obtain ⟨hinv, hguar, hkept⟩ := o.change (.inl rfl) hlater.sound hlater.inv hfind
        (hkey.trans (hlater.sound.key_eq hfind))
      exact ⟨hinv, hguar, fun hdel _ => .pure (hkept hdel (o.room_later hlater hroom))⟩
    · exact .throw _

/-- As many work units are created as there is room for. -/
theorem createAll_keeps (outcome : Outcome) (units : List WorkUnit)
    (hseen : Seen D I key campaign)
    (hunits : ∀ u ∈ units, ∃ index batch, u = workUnit campaign index batch now)
    (hroom : Room campaign units.length s) :
    (createAll campaign correlation outcome units).Keeps c (fun _ _ => True) s := by
  induction units generalizing s outcome with
  | nil => exact .pure trivial
  | cons unit rest ih =>
    obtain ⟨index, batch, rfl⟩ := hunits unit List.mem_cons_self
    have hrest : ∀ u ∈ rest, ∃ index batch, u = workUnit campaign index batch now :=
      fun u hu => hunits u (List.mem_cons_of_mem _ hu)
    unfold createAll
    refine .bind (.create (fun created hlater hnone => ?_) fun {s₁} e hlater => ?_)
    · obtain ⟨hinv, hguar, hroom⟩ := o.create_unit created index batch now hlater.sound hlater.inv
        hseen (o.room_later hlater hroom) hnone
      refine ⟨hinv, hguar, .bind (.measure _ fun hlater₁ => .bind (.publish _ fun hlater₂ => ?_))⟩
      exact ih _ hrest (o.room_later (hlater₁.trans hlater₂) hroom)
    · have hroom := o.room_later hlater hroom
      dsimp only
      split
      · refine .bind (.publish _ fun hlater₁ => ?_)
        exact ih _ hrest (o.room_of_succ (o.room_later hlater₁ hroom))
      · exact .pure trivial

theorem admitAll_keeps (units : List WorkUnit) (batches : List Batch)
    (hseen : Seen D I key campaign)
    (hroom : Room campaign (plan campaign units batches now).create.length s) :
    (admitAll settings campaign correlation now units batches).Keeps c (fun _ _ => True) s := by
  unfold admitAll
  refine .bind ((o.putDocument_keeps settings batches hroom).mono fun _ s₁ hroom => ?_)
  refine .bind ((o.createAll_keeps correlation now _ _ hseen
    (fun _ => exists_of_mem_create) hroom).mono fun result s₂ _ => ?_)
  obtain ⟨outcome, failure⟩ := result
  refine .bind (.measure _ fun _ => .bind ?_)
  refine (o.writeStatus_keeps settings now outcome (some now)).mono fun _ _ _ => ?_
  cases failure with
  | none => exact .pure trivial
  | some e => exact .throw _

theorem passOver_keeps (hseen : Seen D I key campaign) :
    (passOver settings campaign correlation now).Keeps c (fun _ _ => True) s := by
  unfold passOver
  refine .bind (.list fun {s₁ units} hlater hunits => ?_)
  split
  · refine .bind ((drain_keeps correlation now units).mono fun outcome s₂ _ => ?_)
    refine .bind ((o.writeStatus_keeps settings now outcome none).mono fun _ _ _ => ?_)
    exact .pure trivial
  · refine .bind (.lift (.request id fun {s₂} reply hlater₂ => ?_))
    cases reply with
    | error reason => exact .throw _
    | ok repositories =>
      dsimp only
      split
      · next e _ =>
        refine .bind ((o.reject_keeps settings correlation now e).mono fun _ _ _ => ?_)
        exact .throw _
      · next batches _ =>
        refine o.admitAll_keeps settings correlation now units batches hseen ?_
        exact o.room_later hlater₂
          (o.room_of_list batches now hlater.sound hlater.during hlater.inv hseen hunits)

theorem pass_keeps : (pass settings key now).Keeps c (fun _ _ => True) s := by
  unfold pass
  refine .bind (.find? (fun {s₁ object campaign} hlater hfind hdecode => ?_) fun _ _ => ?_)
  · dsimp only
    split
    · exact .pure trivial
    · refine .bind (.correlate fun correlation _ => ?_)
      exact o.passOver_keeps settings correlation now
        ⟨s₁, object, hlater.sound, hlater.during, hlater.inv, hfind, hdecode⟩
  · exact .pure trivial

/-- A pass whose changes keep a contract keeps it, counted or not. -/
theorem reconcile_keeps : (reconcile settings key now).Keeps c (fun _ _ => True) s := by
  unfold reconcile
  refine .bind (Program.Keeps.mono (o.pass_keeps settings now) fun result s₁ _ => ?_)
  cases result with
  | ok action => exact trivial
  | error e => exact .bind (.request id fun _ _ => trivial)

end Outline
end Admission
end CampaignControl
