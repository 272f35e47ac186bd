import CampaignControl.Proofs.Admission.Outline
import CampaignControl.Proofs.Admission.Plan
import CampaignControl.Proofs.Controller
import CampaignControl.Proofs.Lifecycle.Outline

/-!
# The ceiling on live work units

A campaign never has more live work units than its policy allows, however its admission passes
are interleaved with everything else, as long as they follow each other.

A pass counts the live work units that it lists and creates as many as there is room for. By the
time it creates them the listing is out of date, but the number of live work units has only become
smaller since: nobody else adds to it. So the number of live work units together with the number
of those that are still to be created does not exceed the ceiling at any time
(`Admission.ceilingOutline_admission`).
-/

namespace CampaignControl

/-- Whether an object is a work unit that is pending or running. -/
def Object.isLiveUnit (object : Object) : Bool :=
  match (Resource.decode object : Except StoreError WorkUnit) with
  | .ok u => u.isLive
  | .error _ => false

/-- Whether the entry of a store is a live work unit whose owner has this identity. -/
def Store.isLiveOwned (uid : Uid) (e : Slot × Object) : Bool :=
  decide (e.1.kind = .workUnit) && decide (e.2.metadata.owner.map (·.uid) = some uid) &&
    e.2.isLiveUnit

/-- The number of live work units whose owner has this identity. -/
def Store.liveOwned (s : Store) (uid : Uid) : Nat := s.objects.countP (isLiveOwned uid)

/-- The ceiling of a campaign. -/
def Object.parallelism? (object : Object) : Option Nat :=
  match (Resource.decode object : Except StoreError Campaign) with
  | .ok campaign => some campaign.spec.policy.parallelism
  | .error _ => none

/-- The campaign with this identity, if it is stored, is at this key and has this ceiling. -/
def Store.HasCeiling (uid : Uid) (key : Key) (ceiling : Nat) (s : Store) : Prop :=
  ∀ e ∈ s.objects, e.1.kind = .campaign → e.2.metadata.uid = some uid →
    e.1.key = key ∧ e.2.parallelism? = some ceiling

namespace Admission

variable {uid : Uid} {key : Key} {ceiling : Nat} {s s' : Store} {slot : Slot}

/-! ## The number of live work units -/

theorem isLiveUnit_of_body_eq {o o' : Object} (h : o'.body = o.body) :
    o'.isLiveUnit = o.isLiveUnit := by
  unfold Object.isLiveUnit
  rw [Resource.decode_eq_map h]
  cases (Resource.decode o : Except StoreError WorkUnit) <;> rfl

theorem isLiveUnit_of_decode {object : Object} {u : WorkUnit}
    (h : Resource.decode object = .ok u) : object.isLiveUnit = u.isLive := by
  unfold Object.isLiveUnit
  rw [h]

theorem isLiveOwned_iff {object : Object} :
    Store.isLiveOwned uid (slot, object) ↔ slot.kind = .workUnit ∧
      object.metadata.owner.map (·.uid) = some uid ∧ object.isLiveUnit := by
  simp [Store.isLiveOwned, and_assoc]

theorem isLiveOwned_of_fades {o o' : Object} (h : o.Fades o')
    (hlive : Store.isLiveOwned uid (slot, o')) : Store.isLiveOwned uid (slot, o) := by
  obtain ⟨hkind, howner, hlive⟩ := isLiveOwned_iff.1 hlive
  rcases h.owner with heq | heq
  · rw [heq] at howner
    rw [isLiveUnit_of_body_eq h.body] at hlive
    exact isLiveOwned_iff.2 ⟨hkind, howner, hlive⟩
  · rw [heq] at howner
    cases howner

theorem liveOwned_le_of_deletions (uid : Uid) (h : s.Deletions s') :
    s'.liveOwned uid ≤ s.liveOwned uid :=
  h.countP_le fun _ _ _ hfades => isLiveOwned_of_fades hfades

theorem liveOwned_withNew_le_succ (uid : Uid) (s : Store) (slot : Slot) (now : Instant)
    (object : Object) :
    (s.withNew now slot object).liveOwned uid ≤ s.liveOwned uid + 1 :=
  Keyed.countP_insert_le_succ ..

theorem liveOwned_withNew_le {now : Instant} {object : Object}
    (h : ¬ Store.isLiveOwned uid (slot, s.newborn now object)) :
    (s.withNew now slot object).liveOwned uid ≤ s.liveOwned uid :=
  Keyed.countP_insert_le_of_not _ (Bool.not_eq_true _ ▸ h)

theorem liveOwned_withRevised_le (hs : s.Sound) {old object : Object}
    (hold : s.find? slot = some old)
    (h : Store.isLiveOwned uid (slot, s.revised old object) → Store.isLiveOwned uid (slot, old)) :
    (s.withRevised slot old object).liveOwned uid ≤ s.liveOwned uid :=
  hs.ascending.countP_insert_le _ hold h

theorem countP_isLiveUnit {objects : List Object} {units : List WorkUnit}
    (h : objects.mapM Resource.decode = (.ok units : Except StoreError (List WorkUnit))) :
    objects.countP Object.isLiveUnit = liveCount units := by
  induction objects generalizing units with
  | nil => cases h; rfl
  | cons object rest ih =>
    rw [List.mapM_cons] at h
    cases hobject : (Resource.decode object : Except StoreError WorkUnit) with
    | error e => rw [hobject] at h; cases h
    | ok u =>
      cases hrest : (rest.mapM Resource.decode : Except StoreError (List WorkUnit)) with
      | error e => rw [hobject, hrest] at h; cases h
      | ok others =>
        rw [hobject, hrest] at h
        cases h
        rw [List.countP_cons, ih hrest, isLiveUnit_of_decode hobject]
        simp only [liveCount, List.countP_cons]

/-- The live work units that are listed are all that there are. -/
theorem liveOwned_le_liveCount (uid : Uid) {filter : Filter} {units : List WorkUnit}
    (hunits : (s.list .workUnit filter).mapM Resource.decode = .ok units)
    (hselects : ∀ e ∈ s.objects, Store.isLiveOwned uid e → filter.selects e.2.metadata) :
    s.liveOwned uid ≤ liveCount units := by
  rw [← countP_isLiveUnit hunits, Store.list, List.countP_map, List.countP_filter]
  refine List.countP_mono_left fun e he hlive => ?_
  have hselected := hselects e he hlive
  obtain ⟨hkind, -, hlive⟩ := isLiveOwned_iff.1 hlive
  simp [hkind, hselected, hlive]

/-- A plan leaves room for the work units that it has counted. -/
theorem length_create_le (campaign : Campaign) (units : List WorkUnit) (batches : List Batch)
    (now : Instant) :
    (plan campaign units batches now).create.length ≤
      campaign.spec.policy.parallelism - liveCount units := by
  unfold plan
  split
  · exact Nat.zero_le _
  · simp only [List.length_map, selected, quota, List.length_take]
    exact Nat.min_le_left _ _

/-! ## Keeping the ceiling -/

/-- The ceiling is kept, and the work units of the campaign are in its namespace. -/
structure WithinCeiling (uid : Uid) (key : Key) (ceiling : Nat) (s : Store) : Prop where
  le : s.liveOwned uid ≤ ceiling
  space : ∀ {slot object}, s.find? slot = some object → slot.kind = .workUnit →
    object.metadata.owner.map (·.uid) = some uid → object.metadata.key.space = key.space

namespace WithinCeiling

variable (h : WithinCeiling uid key ceiling s)
include h

theorem deletions (hdel : s.Deletions s') :
    WithinCeiling uid key ceiling s' ∧ s'.liveOwned uid ≤ s.liveOwned uid := by
  have hle := liveOwned_le_of_deletions uid hdel
  refine ⟨⟨Nat.le_trans hle h.le, fun found hkind howner => ?_⟩, hle⟩
  obtain ⟨o, hold, hfades⟩ := hdel.fades_of_find? found
  rw [hfades.key]
  refine h.space hold hkind ?_
  rcases hfades.owner with heq | heq
  · rwa [heq] at howner
  · rw [heq] at howner; cases howner

/-- An object that is not a work unit of the campaign is created. -/
theorem withNew (now : Instant) (slot : Slot) (object : Object)
    (hother : slot.kind = .workUnit → object.metadata.owner.map (·.uid) ≠ some uid) :
    WithinCeiling uid key ceiling (s.withNew now slot object) ∧
      (s.withNew now slot object).liveOwned uid ≤ s.liveOwned uid := by
  have hle : (s.withNew now slot object).liveOwned uid ≤ s.liveOwned uid := by
    refine liveOwned_withNew_le fun hlive => ?_
    obtain ⟨hkind, howner, -⟩ := isLiveOwned_iff.1 hlive
    exact hother hkind howner
  refine ⟨⟨Nat.le_trans hle h.le, fun found hkind howner => ?_⟩, hle⟩
  rw [Store.find?_withNew] at found
  split at found
  · next heq =>
    subst heq
    cases found
    exact absurd howner (hother hkind)
  · exact h.space found hkind howner

/-- An object is replaced by one that has the same key and owner, and is not live if the old one
is not. -/
theorem withRevised (hs : s.Sound) {old : Object} (object : Object)
    (hold : s.find? slot = some old)
    (hsame : slot.kind = .workUnit → object.metadata.key = old.metadata.key ∧
      object.metadata.owner = old.metadata.owner ∧ (object.isLiveUnit → old.isLiveUnit)) :
    WithinCeiling uid key ceiling (s.withRevised slot old object) ∧
      (s.withRevised slot old object).liveOwned uid ≤ s.liveOwned uid := by
  have hle : (s.withRevised slot old object).liveOwned uid ≤ s.liveOwned uid := by
    refine liveOwned_withRevised_le hs hold fun hlive => ?_
    obtain ⟨hkind, howner, hlive⟩ := isLiveOwned_iff.1 hlive
    obtain ⟨-, heq, himp⟩ := hsame hkind
    have hbody : (s.revised old object).isLiveUnit = object.isLiveUnit := isLiveUnit_of_body_eq rfl
    exact isLiveOwned_iff.2 ⟨hkind, heq ▸ howner, himp (hbody ▸ hlive)⟩
  refine ⟨⟨Nat.le_trans hle h.le, fun found hkind howner => ?_⟩, hle⟩
  rw [Store.find?_withRevised] at found
  split at found
  · next heq =>
    subst heq
    cases found
    obtain ⟨hkey, heq, -⟩ := hsame hkind
    show object.metadata.key.space = _
    rw [hkey]
    exact h.space hold hkind (heq ▸ howner)
  · exact h.space found hkind howner

end WithinCeiling

/-! ## Passes -/

/-- A pass over the campaign may add live work units, and relies on nobody else's doing so. -/
def ceilingContract (uid : Uid) (key : Key) (ceiling : Nat) (job : Controller.Job) :
    Contract (Store.HasCeiling uid key ceiling) (WithinCeiling uid key ceiling) where
  rely s s' := job.Admits key → s'.liveOwned uid ≤ s.liveOwned uid
  guar s s' := job.Admits key ∨ s'.liveOwned uid ≤ s.liveOwned uid
  rely_refl _ _ := Nat.le_refl _
  rely_trans h h' hadmits := Nat.le_trans (h' hadmits) (h hadmits)
  guar_refl _ := .inr (Nat.le_refl _)
  guar_trans _ _ _ h h' := by
    rcases h with h | h
    · exact .inl h
    · exact h'.imp_right fun h' => Nat.le_trans h' h
  deletions _ h hdel := (h.deletions hdel).imp_right .inr

/-- A lifecycle pass changes live work units or ends them. -/
theorem ceilingOutline_lifecycle (uid : Uid) (key : Key) (ceiling : Nat) (settings : Settings)
    (target : Key) (now : Instant) :
    Lifecycle.Outline (ceilingContract uid key ceiling (.lifecycle settings target now)) target
      (fun _ _ => True) (fun _ => True) (fun _ => True) := by
  have hunit : ∀ {s object u changed},
      Lifecycle.Stored (WithinCeiling uid key ceiling) target s object u →
      Lifecycle.Retains u changed →
      WithinCeiling uid key ceiling (Lifecycle.withUnit s target object changed) ∧
        (ceilingContract uid key ceiling (.lifecycle settings target now)).guar s
          (Lifecycle.withUnit s target object changed) := by
    intro s object u changed hstored hretains
    refine (hstored.inv.withRevised hstored.sound _ hstored.found fun _ => ?_).imp_right .inr
    rw [← hstored.metadata_eq, isLiveUnit_of_decode hstored.decoded,
      isLiveUnit_of_decode (Resource.decode_encode changed)]
    exact ⟨hretains.key, hretains.owner, hretains.isLive⟩
  exact {
    guarded_later := fun _ _ => trivial
    recorded_later := fun _ _ => trivial
    bare_later := fun _ _ => trivial
    guarded := fun _ _ => trivial
    recorded := fun _ _ _ => trivial
    bare := fun _ _ _ _ _ => trivial
    guard := fun hstored hchange => hunit hstored (Lifecycle.retains_guard hchange)
    release := fun hstored _ hchange => hunit hstored (Lifecycle.retains_release hchange)
    create := fun created _ hinv _ _ _ => by
      obtain ⟨hinv, hle⟩ := hinv.withNew created (Lifecycle.executionSlot target) _ nofun
      exact ⟨hinv, .inr hle, trivial⟩
    record := fun _ {_ _ _ _ _} hstored _ hchange => by
      obtain ⟨hinv, hguar⟩ := hunit hstored (Lifecycle.retains_recordExecution hchange)
      exact ⟨hinv, hguar, fun _ => trivial⟩
    follow := fun hstored _ hmoved => hunit hstored (Lifecycle.retains_advance? hmoved) }

/-- The work units that are live and those that are still to be created are within the ceiling
together. -/
theorem ceilingOutline_admission (uid : Uid) (key : Key) (ceiling : Nat) (settings : Settings)
    (target : Key) (now : Instant) :
    Outline (ceilingContract uid key ceiling (.admission settings target now)) target
      fun campaign n s => campaign.metadata.uid = some uid →
        target = key ∧ s.liveOwned uid + n ≤ ceiling where
  room_later hlater hroom huid := by
    obtain ⟨rfl, hle⟩ := hroom huid
    exact ⟨rfl, Nat.le_trans (Nat.add_le_add_right (hlater.rely rfl) _) hle⟩
  room_of_succ hroom huid := by
    obtain ⟨rfl, hle⟩ := hroom huid
    exact ⟨rfl, by omega⟩
  room_of_list {s campaign units} batches now hs hduring hinv hseen hunits huid := by
    obtain ⟨s₀, object, hs₀, hduring₀, -, hfind, hdecode⟩ := id hseen
    have hmetadata := Resource.metadata_of_decode hdecode
    obtain ⟨hkey, hceiling⟩ := hduring₀ _ (Keyed.mem_of_find? hfind) rfl
      (by rw [← hmetadata]; exact huid)
    replace hkey : target = key := hkey
    unfold Object.parallelism? at hceiling
    rw [hdecode] at hceiling
    cases hceiling
    refine ⟨hkey, ?_⟩
    have hle := liveOwned_le_liveCount uid hunits fun e he hlive => by
      obtain ⟨hkind, howner, -⟩ := isLiveOwned_iff.1 hlive
      have hspace := hinv.space (hs.ascending.mem_iff.1 he) hkind howner
      unfold unitFilter
      rw [huid]
      simp [Filter.selects, hspace, howner, hseen.key_eq, hkey]
    have := length_create_le campaign units batches now
    have := hinv.le
    omega
  create_document {s k object campaign n} created hs hinv hnone hkey hroom := by
    obtain ⟨hinv', hle⟩ := hinv.withNew created { kind := .configDocument, key := k } object nofun
    refine ⟨hinv', .inr hle, fun huid => ?_⟩
    obtain ⟨rfl, hroom⟩ := hroom huid
    exact ⟨rfl, by omega⟩
  change {s slot old object} hkind hs hinv hold hkey := by
    obtain ⟨hinv', hle⟩ := hinv.withRevised hs object hold fun h => by
      rw [h] at hkind
      rcases hkind with hkind | hkind <;> cases hkind
    refine ⟨hinv', .inr hle, fun {s' campaign n} hdel hroom huid => ?_⟩
    obtain ⟨rfl, hroom⟩ := hroom huid
    have := liveOwned_le_of_deletions uid hdel
    exact ⟨rfl, by omega⟩
  create_unit {s campaign n} created index batch now hs hinv hseen hroom hnone := by
    by_cases huid : campaign.metadata.uid = some uid
    · obtain ⟨rfl, hle⟩ := hroom huid
      have hsucc := liveOwned_withNew_le_succ uid s
        (Resource.slot (workUnit campaign index batch now)) created
        (Resource.encode (workUnit campaign index batch now))
      refine ⟨⟨by omega, fun found hkind howner => ?_⟩, .inl rfl, fun _ => ⟨rfl, by omega⟩⟩
      rw [Store.find?_withNew] at found
      split at found
      · cases found
        show campaign.key.space = target.space
        rw [hseen.key_eq]
      · exact hinv.space found hkind howner
    · obtain ⟨hinv', hle⟩ := hinv.withNew created
        (Resource.slot (workUnit campaign index batch now))
        (Resource.encode (workUnit campaign index batch now))
        fun _ howner => huid ((owner_workUnit campaign index batch now).symm.trans howner)
      exact ⟨hinv', .inr hle, fun h => absurd h huid⟩

/-! ## The ceiling -/

/-- Admission passes over the campaign at a key follow each other, and its ceiling stays. -/
def ceilingRules (uid : Uid) (key : Key) (ceiling : Nat) : Rules Controller.repertoire where
  excludes job job' := job.Admits key ∧ job'.Admits key
  outside := Controller.IsOutside
  during := Store.HasCeiling uid key ceiling

section
variable (uid : Uid) (key : Key) (ceiling : Nat)

instance : DecidableRel (ceilingRules uid key ceiling).excludes :=
  fun (job job' : Controller.Job) => inferInstanceAs (Decidable (job.Admits key ∧ job'.Admits key))

instance : DecidablePred (ceilingRules uid key ceiling).outside :=
  inferInstanceAs (DecidablePred Controller.IsOutside)

instance : DecidablePred (ceilingRules uid key ceiling).during := fun s =>
  inferInstanceAs (Decidable (∀ e ∈ s.objects, e.1.kind = .campaign → e.2.metadata.uid = some uid →
    e.1.key = key ∧ e.2.parallelism? = some ceiling))

end

theorem ceiling_upheld (uid : Uid) (key : Key) (ceiling : Nat) :
    (ceilingRules uid key ceiling).Upheld (WithinCeiling uid key ceiling)
      (fun job => (ceilingContract uid key ceiling job).guar)
      (Task.Keeps (ceilingContract uid key ceiling)) := by
  refine .of_contracts (ceilingRules uid key ceiling) (ceilingContract uid key ceiling)
    ⟨Nat.zero_le _, fun h => by cases h⟩ ?_ ?_ ?_
  · intro job s hs hduring hinv
    cases job with
    | admission settings target now =>
      have o := ceilingOutline_admission uid key ceiling settings target now
      exact o.reconcile_keeps settings now
    | lifecycle settings target now =>
      have o := ceilingOutline_lifecycle uid key ceiling settings target now
      exact o.reconcile_keeps settings now
  · intro job job' s s' hexcludes hguar hadmits
    rcases hguar with hadmits' | hle
    · rcases hexcludes with h | h
      · exact absurd ⟨hadmits', hadmits⟩ h
      · exact absurd ⟨hadmits, hadmits'⟩ h
    · exact hle
  · intro now r s hr hs hduring hinv
    have hserve : WithinCeiling uid key ceiling (s.serve now r).2 ∧
        (s.serve now r).2.liveOwned uid ≤ s.liveOwned uid := by
      refine hr.serve (P := fun s' => WithinCeiling uid key ceiling s' ∧
        s'.liveOwned uid ≤ s.liveOwned uid) ⟨hinv, Nat.le_refl _⟩ hinv.deletions ?_ ?_ now
      · intro slot object now hkind hnone hkey
        refine hinv.withNew now slot object fun h => ?_
        rw [h] at hkind
        rcases hkind with hkind | hkind <;> cases hkind
      · intro slot old object s' hkind hold hkey hdel
        obtain ⟨hinv', hle⟩ := hinv.withRevised hs object hold fun h => by
          rw [h] at hkind
          rcases hkind with hkind | hkind | ⟨hkind, -⟩ <;> cases hkind
        obtain ⟨hinv', hle'⟩ := hinv'.deletions hdel
        exact ⟨hinv', Nat.le_trans hle' hle⟩
    exact ⟨hserve.1, fun _ _ => hserve.2⟩

/-- **The parallelism ceiling.** As long as the policy of a campaign allows `ceiling` live work
units, and its admission passes follow each other, there are never more. -/
theorem liveOwned_le_parallelism (uid : Uid) (key : Key) (ceiling : Nat)
    {w : World Controller.repertoire} (hw : (ceilingRules uid key ceiling).Reachable w) :
    w.store.liveOwned uid ≤ ceiling :=
  ((ceiling_upheld uid key ceiling).holds hw).1.le

/-- A campaign that may have one live work unit has one after a start. -/
theorem liveOwned_le_parallelism_sample :
    ∃ w, (ceilingRules (.issued 1) Controller.sampleCampaign.key 1).Reachable w ∧
      w.store.liveOwned (.issued 1) = 1 ∧ w.store.liveOwned (.issued 1) ≤ 1 := by
  have hplay : ((ceilingRules (.issued 1) Controller.sampleCampaign.key 1).play {}
      Controller.sampleStart).any fun w => w.store.liveOwned (.issued 1) = 1 := by decide +kernel
  obtain ⟨w, hsteps, hlive⟩ := Rules.exists_of_play hplay
  have hreachable : (ceilingRules (.issued 1) Controller.sampleCampaign.key 1).Reachable w :=
    ⟨(fun e he => by cases he), hsteps⟩
  exact ⟨w, hreachable, of_decide_eq_true hlive, liveOwned_le_parallelism _ _ _ hreachable⟩

end Admission
end CampaignControl
