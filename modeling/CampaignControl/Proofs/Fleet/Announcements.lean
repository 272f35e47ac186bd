import CampaignControl.Proofs.Admission.Ceiling
import CampaignControl.Proofs.Fleet.Rounds
import CampaignControl.Proofs.Lifecycle.Solo
import CampaignControl.Supervisor.Task

/-!
# Room that is announced

A lifecycle pass that is alone in a fleet changes no work unit but its own
(`Fleet.find?_unit_of_lone`). So whatever room it leaves in a campaign has been left by this one
work unit, and the pass has published an event that tells the observer to pass over the campaign
(`Fleet.room_announced`).
-/

namespace CampaignControl

/-! ## Counting -/

/-- If there is a counted entry for the key of every counted entry, there are at least as many. -/
theorem Keyed.Ascending.countP_le {κ ν : Type} [DecidableEq κ] [LT κ]
    [IsStrictTotalOrder κ (· < ·)] {p : κ × ν → Bool} {entries entries' : List (κ × ν)}
    (h : Ascending entries) (hkept : ∀ key value, (key, value) ∈ entries → p (key, value) →
      ∃ value', (key, value') ∈ entries' ∧ p (key, value')) :
    entries.countP p ≤ entries'.countP p := by
  have hnodup : ((entries.filter p).map Prod.fst).Nodup := by
    have hsub : ((entries.filter p).map Prod.fst).Sublist (entries.map Prod.fst) :=
      List.filter_sublist.map Prod.fst
    refine ((Ascending.iff_map_fst.1 h).sublist hsub).imp fun {a b} hlt heq => ?_
    exact irrefl (r := (· < ·)) a (heq.symm ▸ hlt)
  have hsubset : (entries.filter p).map Prod.fst ⊆ (entries'.filter p).map Prod.fst := by
    intro key hkey
    obtain ⟨⟨_, value⟩, hmem, rfl⟩ := List.mem_map.1 hkey
    obtain ⟨hentry, hp⟩ := List.mem_filter.1 hmem
    obtain ⟨value', hentry', hp'⟩ := hkept _ value hentry hp
    exact List.mem_map.2 ⟨_, List.mem_filter.2 ⟨hentry', hp'⟩, rfl⟩
  have hle := (List.subperm_of_subset hnodup hsubset).length_le
  rwa [List.length_map, List.length_map, ← List.countP_eq_length_filter,
    ← List.countP_eq_length_filter] at hle

/-- A work unit for a batch is stored whose owner has this identity. -/
def Store.HasBatch (s : Store) (uid : Uid) (index : Nat) : Prop :=
  ∃ k o, ∃ u : WorkUnit, s.find? (Lifecycle.unitSlot k) = some o ∧
    o.metadata.owner.map (·.uid) = some uid ∧ Resource.decode o = .ok u ∧
    u.spec.batchIndex = index

/-- What has been true all along a program that has been alone. -/
theorem Program.Lone.keeps {α : Type} {p : Program α} {a : α} {log : List Exchange}
    {s s' : Store} {P : Store → Prop} (h : p.Lone s a log s') (hs : P s)
    (hstep : ∀ e ∈ log, e.request.Answered e.before e.reply e.after → P e.before → P e.after) :
    P s' := by
  induction h with
  | done => exact hs
  | ask hanswered _ ih =>
    obtain ⟨hfirst, hrest⟩ := List.forall_mem_cons.1 hstep
    exact ih (hfirst hanswered hs) hrest

namespace Fleet

open Admission (campaignSlot)
open Lifecycle (unitSlot executionSlot Confined Announced Accounted Present)

variable {s s' : Store} {slot root : Slot} {key k : Key} {uid : Uid}

/-! ## What a lifecycle pass leaves alone -/

namespace Regular

/-- No campaign goes with something else. -/
theorem ne_campaign_of_doomed (hs : Regular s) (hroot : root.kind ≠ .campaign)
    (h : s.Doomed root slot) : slot.kind ≠ .campaign := by
  induction h with
  | root => exact hroot
  | owned _ howner hother _ howns ih =>
    rcases hs.owns howner hother howns with ⟨hkind, -⟩ | ⟨k, -, rfl⟩
    · exact absurd hkind ih
    · nofun

/-- Where no campaign goes, the work units stay as they are but for the one that goes. -/
theorem find?_unit_of_cascaded (hs : Regular s) (hroot : root.kind ≠ .campaign)
    (hcascaded : s.Cascaded root s') (hne : unitSlot k ≠ root) :
    s'.find? (unitSlot k) = s.find? (unitSlot k) := by
  have hfree : ∀ {slot o o'}, s.Doomed root slot → s.find? slot = some o →
      s.find? (unitSlot k) = some o' → ¬ o.Owns o' := by
    intro slot o o' hdoomed howner hother howns
    rcases hs.owns howner hother howns with ⟨hkind, -⟩ | ⟨key, -, hslot⟩
    · exact hs.ne_campaign_of_doomed hroot hdoomed hkind
    · cases hslot
  have hstays : ¬ s.Doomed root (unitSlot k) := by
    intro hdoomed
    cases hdoomed with
    | root => exact hne rfl
    | owned hdoomed howner hother _ howns => exact hfree hdoomed howner hother howns
  cases found : s.find? (unitSlot k) with
  | none => exact (hcascaded.find?_eq_none_iff _).2 (.inl found)
  | some o =>
    refine hcascaded.unchanged _ o found hstays (.inl ?_)
    rintro ⟨slot, owner, hdoomed, howner, howns⟩
    exact hfree hdoomed howner found howns

theorem find?_unit_of_confined (hs : Regular s) {r : StoreRequest}
    (hconfined : Confined key (.store r)) (hout : s.Outcome r s') (hne : k ≠ key) :
    s'.find? (unitSlot k) = s.find? (unitSlot k) := by
  have hunit : unitSlot k ≠ unitSlot key := fun heq => hne (congrArg Slot.key heq)
  have hexecution : ∀ key', executionSlot key' ≠ unitSlot k :=
    fun _ heq => nomatch congrArg Slot.kind heq
  have hroot : (unitSlot key).kind ≠ .campaign := nofun
  cases hout with
  | idle hsame => exact hsame _
  | create =>
    obtain rfl := hconfined
    exact (Store.find?_withNew ..).trans (if_neg (hexecution _))
  | revise =>
    obtain ⟨rfl, rfl⟩ := hconfined
    exact (Store.find?_withRevised ..).trans (if_neg (Ne.symm hunit))
  | release _ _ _ _ hcascaded =>
    obtain ⟨rfl, rfl⟩ := hconfined
    exact hs.find?_unit_of_cascaded hroot hcascaded hunit
  | mark _ _ _ _ _ hother =>
    apply hother
    obtain ⟨rfl | ⟨rfl, rfl⟩, -⟩ := hconfined
    · exact hexecution _
    · exact Ne.symm hunit
  | remove _ _ _ hcascaded =>
    obtain ⟨rfl | ⟨rfl, rfl⟩, -⟩ := hconfined
    · have hroot' : Kind.execution ≠ Kind.campaign := nofun
      exact hs.find?_unit_of_cascaded hroot' hcascaded (hexecution _).symm
    · exact hs.find?_unit_of_cascaded hroot hcascaded hunit
  | leave => cases hconfined.2

end Regular

/-- A job that is alone comes to stores only that a fleet may have. -/
theorem arises_of_lone (job : repertoire.Job) {a : repertoire.Result job} {log : List Exchange}
    (hs : Arises s) (hlone : (repertoire.program job).Lone s a log s') :
    ∀ e ∈ log, Arises e.before := by
  obtain ⟨w, hw, rfl⟩ := hs
  have hidle := hw.of_steps (Rules.steps_abandon (fun _ => trivial) w)
  have hstart : openRules.Reachable
      { store := w.store, tasks := w.tasks.map .abandon ++ [.start job] } := by
    refine hidle.of_steps (.single ⟨.start job fun t ht hprogress => ?_, trivial⟩)
    obtain ⟨t, -, rfl⟩ := List.mem_map.1 ht
    cases hprogress.1
  have hend := hstart.of_steps (Rules.steps_lone (fun _ => trivial) hlone _)
  intro e he
  obtain ⟨_, w₀, _, -, hw₀, -, htook⟩ :=
    hend.exists_exchange (List.mem_append_right _ List.mem_cons_self) he
  exact ⟨w₀, hw₀, htook.store_before⟩

variable {settings : Settings} {now : Instant} {result : Except Error Action}
  {log : List Exchange}

/-- A lifecycle pass that is alone leaves all work units alone but its own. -/
theorem find?_unit_of_lone (hs : Arises s)
    (hlone : (Lifecycle.reconcile settings key now).Lone s result log s') (hne : k ≠ key) :
    s'.find? (unitSlot k) = s.find? (unitSlot k) := by
  have hsound := hs.regular.sound
  have harises := arises_of_lone (.pass (.lifecycle settings key now)) hs hlone
  have hconfined := ((Lifecycle.reconcile_ensures settings now hsound).lone hlone hsound).2
  refine hlone.keeps (P := fun s₁ => s₁.find? (unitSlot k) = s.find? (unitSlot k)) rfl ?_
  intro e he hanswered hsame
  obtain ⟨front, back, rfl⟩ := List.append_of_mem he
  have hregular := (harises e he).regular
  have hask := hconfined front e back rfl
  obtain ⟨request, reply, before, after⟩ := e
  cases request with
  | store r =>
    exact (hregular.find?_unit_of_confined hask (hanswered.outcome hregular.sound) hne).trans hsame
  | discover | correlate | publish | measure =>
    rw [show after = before from hanswered]
    exact hsame

/-! ## The room in a campaign -/

/-- The work units of an owner are as they were: no record has gone, and none has come to its
end. -/
def Keeps (uid : Uid) (s s' : Store) : Prop :=
  ∀ k o, s.find? (unitSlot k) = some o → o.metadata.owner.map (·.uid) = some uid →
    ∃ o', s'.find? (unitSlot k) = some o' ∧ o'.metadata.owner = o.metadata.owner ∧
      (o.isLiveUnit → o'.isLiveUnit) ∧ ∀ u : WorkUnit, Resource.decode o = .ok u →
        ∃ u' : WorkUnit, Resource.decode o' = .ok u' ∧ u'.spec = u.spec

theorem Keeps.liveOwned_le (h : Keeps uid s s') (hs : s.Sound) :
    s.liveOwned uid ≤ s'.liveOwned uid := by
  refine hs.ascending.countP_le fun slot o hmem hlive => ?_
  obtain ⟨hkind, howner, hunit⟩ := Admission.isLiveOwned_iff.1 hlive
  obtain ⟨kind, k⟩ := slot
  obtain rfl : kind = .workUnit := hkind
  obtain ⟨o', found', howner', hlive', -⟩ := h k o (hs.ascending.mem_iff.1 hmem) howner
  exact ⟨o', Keyed.mem_of_find? found',
    Admission.isLiveOwned_iff.2 ⟨rfl, (howner' ▸ howner), hlive' hunit⟩⟩

theorem Keeps.hasBatch (h : Keeps uid s s') {index : Nat} (hbatch : s.HasBatch uid index) :
    s'.HasBatch uid index := by
  obtain ⟨k, o, u, found, howner, hdecode, rfl⟩ := hbatch
  obtain ⟨o', found', howner', -, hspec⟩ := h k o found howner
  obtain ⟨u', hdecode', heq⟩ := hspec u hdecode
  exact ⟨k, o', u', found', howner' ▸ howner, hdecode', congrArg WorkUnit.Spec.batchIndex heq⟩

/-- There is less of a campaign: fewer live work units, or no work unit any more for some batch. -/
def Shrinks (uid : Uid) (s s' : Store) : Prop :=
  s'.liveOwned uid < s.liveOwned uid ∨
    ∃ index, s.HasBatch uid index ∧ ¬ s'.HasBatch uid index

theorem Shrinks.not_keeps (h : Shrinks uid s s') (hs : s.Sound) : ¬ Keeps uid s s' := by
  intro hkeeps
  rcases h with hlt | ⟨index, hbatch, hnone⟩
  · exact absurd (hkeeps.liveOwned_le hs) (Nat.not_le.2 hlt)
  · exact hnone (hkeeps.hasBatch hbatch)

variable {named : Key → Prop} {deletes : Prop} {w : World repertoire}

theorem arises (hw : (rules named deletes).Reachable w) : Arises w.store :=
  ⟨w, ⟨trivial, Rules.Steps.relax hw.steps (fun _ _ h => h) (fun _ h => IsUser.isOpen h)
    fun _ _ => trivial⟩, rfl⟩

/-- A work unit that is present and as live as before is as it was. -/
theorem kept_of_present {o : Object} {u u' : WorkUnit} (hdecode : Resource.decode o = .ok u)
    (h : Present u log s' u') (hlive : u.isLive → u'.isLive) :
    ∃ o', s'.find? (unitSlot u.key) = some o' ∧ o'.metadata.owner = o.metadata.owner ∧
      (o.isLiveUnit → o'.isLiveUnit) ∧ ∀ u₁ : WorkUnit, Resource.decode o = .ok u₁ →
        ∃ u₁' : WorkUnit, Resource.decode o' = .ok u₁' ∧ u₁'.spec = u₁.spec := by
  obtain ⟨o', found', hdecode'⟩ := h.found
  have hmetadata : u.metadata = o.metadata := Resource.metadata_of_decode hdecode
  have hmetadata' : u'.metadata = o'.metadata := Resource.metadata_of_decode hdecode'
  refine ⟨o', found', ?_, fun hunit => ?_, fun u₁ hdecode₁ => ⟨u', hdecode', ?_⟩⟩
  · rw [← hmetadata, ← hmetadata', h.owner]
  · rw [Admission.isLiveUnit_of_decode hdecode] at hunit
    rw [Admission.isLiveUnit_of_decode hdecode']
    exact hlive hunit
  · cases hdecode.symm.trans hdecode₁
    exact h.spec

/-- After a lifecycle pass the work units of an owner are as they were, or something has been
announced to their campaign. -/
theorem keeps_or_announced (hw : (rules named deletes).Reachable w)
    (hlone : (Lifecycle.reconcile settings key now).Lone w.store result log s') (uid : Uid) :
    Keeps uid w.store s' ∨ ∃ K, w.Met (campaignSlot K) uid ∧ Announced K log := by
  have hsame : ∀ k, k ≠ key → s'.find? (unitSlot k) = w.store.find? (unitSlot k) :=
    fun k hne => find?_unit_of_lone (arises hw) hlone hne
  have hother : ∀ k o, k ≠ key → w.store.find? (unitSlot k) = some o →
      ∃ o', s'.find? (unitSlot k) = some o' ∧ o'.metadata.owner = o.metadata.owner ∧
        (o.isLiveUnit → o'.isLiveUnit) ∧ ∀ u : WorkUnit, Resource.decode o = .ok u →
          ∃ u' : WorkUnit, Resource.decode o' = .ok u' ∧ u'.spec = u.spec :=
    fun k o hne found => ⟨o, (hsame k hne).trans found, rfl, id, fun u hu => ⟨u, hu, rfl⟩⟩
  cases found : w.store.find? (unitSlot key) with
  | none =>
    refine .inl fun k o found' _ => hother k o ?_ found'
    rintro rfl
    cases found.symm.trans found'
  | some o =>
    obtain ⟨owner, u, howner, hmet, hdecode, hcampaign, -, -⟩ :=
      (descends hw (unitSlot key) o found).of_unit
    have hkey : u.key = key := hw.sound.key_of_decode found hdecode
    by_cases huid : owner.uid = uid
    · have hK : u.campaignKey = { space := key.space, name := owner.name } :=
        congrArg₂ Key.mk (congrArg Key.space hkey) hcampaign
      have hannounced : Announced u.campaignKey log →
          ∃ K, w.Met (campaignSlot K) uid ∧ Announced K log :=
        fun h => ⟨_, huid ▸ hmet, hK ▸ h⟩
      have hensures := @Lifecycle.reconcile_ensures key w.store settings now hw.sound
      rcases (hensures.lone hlone hw.sound).1.2 o u found hdecode with h | ⟨u', h⟩
      · exact .inr (hannounced h)
      · by_cases hend : u.isLive → u'.isLive
        · refine .inl fun k o₁ found₁ _ => ?_
          by_cases hk : k = key
          · subst hk
            cases found.symm.trans found₁
            exact hkey ▸ kept_of_present hdecode h hend
          · exact hother k o₁ hk found₁
        · obtain ⟨hlive, hnot⟩ := Classical.not_imp.1 hend
          exact .inr (hannounced ((h.isLive hlive).resolve_left hnot))
    · refine .inl fun k o₁ found₁ howner₁ => hother k o₁ ?_ found₁
      rintro rfl
      cases found.symm.trans found₁
      rw [howner] at howner₁
      exact huid (Option.some.inj howner₁)

/-- **No room is left without an announcement.** When a lifecycle pass in a fleet is not disturbed,
whatever conflicts and outages it meets, and afterwards there is less of a campaign than before, it
has published an event that tells of room in this campaign, and by which the observer passes over
it. -/
theorem room_announced (hw : (rules named deletes).Reachable w) {stage after : Stage}
    (hstore : stage.store = w.store) (hrules : stage.rules = []) (hloud : stage.mute = false)
    (hrun : stage.run (Lifecycle.reconcile settings key now) = (result, after))
    (hshrinks : Shrinks uid stage.store after.store) :
    ∃ campaign events, w.Met (campaignSlot campaign) uid ∧ after.events = stage.events ++ events ∧
      ∃ e ∈ events, e.payload.freesCapacity ∧ e.campaign = campaign ∧
        .campaign campaign ∈ e.targets := by
  obtain ⟨log, hlone, hevents⟩ := Stage.lone (Lifecycle.reconcile settings key now) hrules
  rw [hrun, hstore] at hlone
  rw [hrun] at hevents
  rw [hstore] at hshrinks
  obtain ⟨K, hmet, e, he, hfrees, rfl⟩ :=
    (keeps_or_announced hw hlone uid).resolve_left (hshrinks.not_keeps hw.sound)
  refine ⟨e.campaign, published log, hmet, hevents hloud, e, he, hfrees, rfl, ?_⟩
  exact List.mem_append_right _ (by rw [if_pos hfrees]; exact List.mem_cons_self)

/-- The first change of a work unit meets a version conflict. -/
def sampleStage (s : Store) : Stage :=
  { store := s, faults := { conflicts := [(.workUnit, 1)] } }

/-- A work unit has been found completed, after a conflict. -/
theorem room_announced_sample : ∃ (w : World repertoire) (stage after : Stage)
    (result : Except Error Action) (uid : Uid) (campaign : Key) (events : List Event),
    (rules (fun _ => True) True).Reachable w ∧ stage = sampleStage w.store ∧
      stage.run (Lifecycle.reconcile {} (Lifecycle.sampleUnit 0) .epoch) = (result, after) ∧
      after.store.liveOwned uid < stage.store.liveOwned uid ∧ w.Met (campaignSlot campaign) uid ∧
      after.events = stage.events ++ events ∧
      ∃ e ∈ events, e.payload.freesCapacity ∧ .campaign campaign ∈ e.targets := by
  let script := Lifecycle.sampleFleet ++ Lifecycle.sampleReport
  have hplay : ((rules (fun _ => True) True).play {} script).any fun w =>
      decide ((((sampleStage w.store).run
        (Lifecycle.reconcile {} (Lifecycle.sampleUnit 0) .epoch)).2.store.liveOwned (.issued 1)) <
          w.store.liveOwned (.issued 1)) := by
    decide +kernel
  obtain ⟨w, hsteps, hless⟩ := Rules.exists_of_play hplay
  have hw : (rules (fun _ => True) True).Reachable w := ⟨trivial, hsteps⟩
  have hless := of_decide_eq_true hless
  obtain ⟨campaign, events, hmet, hevents, e, he, hfrees, -, htargets⟩ :=
    @room_announced (Lifecycle.sampleUnit 0) (.issued 1) {} .epoch _ _ _ w hw (sampleStage w.store)
      _ rfl rfl rfl rfl (.inl hless)
  exact ⟨w, _, _, _, _, campaign, events, hw, rfl, rfl, hless, hmet, hevents, e, he, hfrees,
    htargets⟩

end Fleet
end CampaignControl
