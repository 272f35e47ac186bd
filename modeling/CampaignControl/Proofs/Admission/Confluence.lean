import CampaignControl.Proofs.Admission.Recovery
import CampaignControl.Proofs.Concurrency.Milestones

/-!
# Admission passes side by side

Any number of admission passes over one campaign, interleaved in any way, come to what one of them
alone comes to. They list at different times, and each plans from a different part of what the
others have created. But as each lists nothing else in addition than work units of the plan that
the first one has, its plan is the rest of that plan (`Admission.create_of_news`), so whatever is
created is part of that plan (`Admission.Raced`); and all of it is there when a pass has tried the
work units of its own plan, since the others were there when it listed
(`Admission.admitAll_abides`).
-/

namespace CampaignControl

/-- What is to be done by the work unit that an object is, if it is one. -/
def Object.workSpec? (o : Object) : Option WorkUnit.Spec :=
  (Resource.decode o : Except StoreError WorkUnit).toOption.map (·.spec)

theorem Object.workSpec?_of_body {o : Object} {u : WorkUnit} (h : o.body = Resource.body u) :
    o.workSpec? = some u.spec := by
  have hdecode : Resource.decode o = (.ok (Resource.setMetadata o.metadata u) :
      Except StoreError WorkUnit) := by
    have hstored := Resource.decode_stored o.metadata u
    rwa [← h] at hstored
  rw [workSpec?, hdecode]
  rfl

/-- Two states of a campaign between which only reports on it have been written. -/
def Campaign.Alike (a b : Campaign) : Prop :=
  ∃ status version, b = { a with status, metadata := { a.metadata with version } }

namespace Admission

variable {campaign c : Campaign} {planned units news : List WorkUnit} {batches : List Batch}
  {s t t' : Store} {key : Key} {repositories : List String} {now now' : Instant}
  {log : List Milestone}

/-! ## The store during a race -/

/-- The work units that have been added to a listing. -/
structure News (planned : List WorkUnit) (t : Store) (news : List WorkUnit) : Prop where
  live : ∀ u ∈ news, u.isLive
  made : ∀ u ∈ news, ∃ u' ∈ planned, u'.spec = u.spec ∧ t.find? (Resource.slot u') ≠ none
  nodup : (news.map (·.spec.batchIndex)).Nodup

theorem News.grows (h : News planned t news) (hgrows : t.Grows t') : News planned t' news := by
  refine ⟨h.live, fun u hu => ?_, h.nodup⟩
  obtain ⟨u', hu', hspec, hthere⟩ := h.made u hu
  exact ⟨u', hu', hspec, hgrows.find?_ne_none hthere⟩

/-- What has become of a store while passes over a campaign were at work that all create work units
of one plan. -/
structure Raced (campaign : Campaign) (planned : List WorkUnit) (s t : Store) : Prop where
  reported : ∃ c, campaign.Alike c ∧ t.campaign? campaign.key = some c
  /-- A document that cannot be read stays as it is. -/
  unreadable : s.isReadable (documentSlot campaign) = false →
    t.find? (documentSlot campaign) = s.find? (documentSlot campaign)
  made : ∀ k o, s.find? { kind := .workUnit, key := k } = none →
    t.find? { kind := .workUnit, key := k } = some o →
    ∃ u ∈ planned, u.key = k ∧ o.workSpec? = some u.spec
  listed : ∃ objects news, (t.list .workUnit (unitFilter campaign)).Perm
      (s.list .workUnit (unitFilter campaign) ++ objects) ∧
    objects.mapM Resource.decode = .ok news ∧ News planned t news

theorem Raced.refl (hcampaign : s.campaign? campaign.key = some campaign) :
    Raced campaign planned s s where
  reported := ⟨campaign, ⟨campaign.status, campaign.metadata.version, rfl⟩, hcampaign⟩
  unreadable _ := rfl
  made k o hnone found := by cases hnone.symm.trans found
  listed := ⟨[], [], by rw [List.append_nil], rfl, fun _ h => absurd h List.not_mem_nil,
    fun _ h => absurd h List.not_mem_nil, List.nodup_nil⟩

/-- Something else than a work unit is written. -/
theorem Raced.alikeBut {slot : Slot} (h : Raced campaign planned s t)
    (halike : Store.AlikeBut slot t t') (hkind : slot.kind ≠ .workUnit)
    (hcampaign : ∃ c, campaign.Alike c ∧ t'.campaign? campaign.key = some c)
    (hdocument : s.isReadable (documentSlot campaign) = false → slot ≠ documentSlot campaign) :
    Raced campaign planned s t' := by
  have hunit : ∀ k, t'.find? { kind := .workUnit, key := k } =
      t.find? { kind := .workUnit, key := k } :=
    fun k => halike.find? _ (ne_of_apply_ne Slot.kind (Ne.symm hkind))
  refine ⟨hcampaign, fun hunreadable => ?_, fun k o hnone found => ?_, ?_⟩
  · rw [halike.find? _ (Ne.symm (hdocument hunreadable))]
    exact h.unreadable hunreadable
  · rw [hunit] at found
    exact h.made k o hnone found
  · obtain ⟨objects, news, hperm, hdecode, hnews⟩ := h.listed
    refine ⟨objects, news, ?_, hdecode, hnews.live, fun u hu => ?_, hnews.nodup⟩
    · rw [halike.list _ _ (Ne.symm hkind)]
      exact hperm
    · obtain ⟨u', hu', hspec, hstored⟩ := hnews.made u hu
      exact ⟨u', hu', hspec, (hunit u'.key).symm ▸ hstored⟩

/-- A work unit is one of the plan, but perhaps planned at another time. -/
structure IsPlanned (campaign : Campaign) (planned : List WorkUnit) (u : WorkUnit) : Prop where
  workUnit : ∃ index batch now, u = workUnit campaign index batch now
  mem : ∃ u' ∈ planned, u'.key = u.key ∧ u'.spec = u.spec

/-- A new work unit of the plan is listed beside those that have been added. -/
theorem News.withNew (h : News planned t news)
    (hnodup : (planned.map (·.spec.batchIndex)).Nodup) {u u' : WorkUnit} (hu' : u' ∈ planned)
    (hkey : u'.key = u.key) (hspec : u'.spec = u.spec) (hlive : u.isLive)
    (hnone : t.find? (Resource.slot u) = none) (clock : Instant) :
    News planned (t.withNew clock (Resource.slot u) (Resource.encode u))
      (Resource.setMetadata (t.newborn clock (Resource.encode u)).metadata u :: news) := by
  have hslot : Resource.slot u' = Resource.slot u := congrArg (Slot.mk .workUnit) hkey
  have hstays := h.grows (Store.adds_withNew hnone clock (Resource.encode u)).grows
  refine ⟨fun n hn => ?_, fun n hn => ?_, List.nodup_cons.2 ⟨fun hmem => ?_, h.nodup⟩⟩
  · rcases List.mem_cons.1 hn with rfl | hn
    · exact hlive
    · exact h.live n hn
  · rcases List.mem_cons.1 hn with rfl | hn
    · refine ⟨u', hu', hspec, ?_⟩
      rw [hslot, Store.find?_withNew, if_pos rfl]
      exact Option.some_ne_none _
    · exact hstays.made n hn
  · -- a work unit with this index has the same key, but there is none yet
    obtain ⟨n, hn, hindex⟩ := List.mem_map.1 hmem
    obtain ⟨n', hn', hspec', hthere⟩ := h.made n hn
    have heq : n' = u' := List.inj_on_of_nodup_map hnodup hn' hu' (by
      rw [hspec', hspec]
      exact hindex)
    exact hthere (heq ▸ hslot ▸ hnone)

/-- A work unit of the plan is created. -/
theorem Raced.withNew (h : Raced campaign planned s t) {uid : Uid}
    (huid : campaign.metadata.uid = some uid)
    (hnodup : (planned.map (·.spec.batchIndex)).Nodup) {u : WorkUnit}
    (hu : IsPlanned campaign planned u) (hnone : t.find? (Resource.slot u) = none)
    (clock : Instant) :
    Raced campaign planned s (t.withNew clock (Resource.slot u) (Resource.encode u)) := by
  obtain ⟨u', hu', hkey, hspec⟩ := hu.mem
  obtain ⟨index, batch, now, rfl⟩ := hu.workUnit
  have hselects : (unitFilter campaign).selects (t.newborn clock
      (Resource.encode (workUnit campaign index batch now))).metadata :=
    selects_workUnit huid index batch now rfl rfl
  have hlive : (workUnit campaign index batch now).isLive := rfl
  generalize workUnit campaign index batch now = u at *
  have halike := Store.AlikeBut.withNew t clock (Resource.slot u) (Resource.encode u)
  refine ⟨?_, fun hunreadable => ?_, fun k o hk found => ?_, ?_⟩
  · obtain ⟨c, hlike, hc⟩ := h.reported
    have hkind : Kind.workUnit ≠ .campaign := by decide
    exact ⟨c, hlike, (halike.campaign? hkind _).trans hc⟩
  · have hne : documentSlot campaign ≠ Resource.slot u :=
      Slot.ne_of_kind_ne (show Kind.configDocument ≠ .workUnit by decide)
    exact (halike.find? _ hne).trans (h.unreadable hunreadable)
  · by_cases hsame : ({ kind := .workUnit, key := k } : Slot) = Resource.slot u
    · rw [hsame, Store.find?_withNew, if_pos rfl] at found
      cases found
      refine ⟨u', hu', hkey.trans (congrArg Slot.key hsame).symm, ?_⟩
      rw [hspec]
      exact Object.workSpec?_of_body rfl
    · rw [halike.find? _ hsame] at found
      exact h.made k o hk found
  · obtain ⟨objects, news, hperm, hdecode, hnews⟩ := h.listed
    have hstored := Resource.decode_stored (t.newborn clock (Resource.encode u)).metadata u
    exact ⟨t.newborn clock (Resource.encode u) :: objects, _,
      (Store.list_withNew hnone hselects).trans
        ((hperm.cons _).trans List.perm_middle.symm),
      mapM_eq_ok_iff.2 (.cons hstored (mapM_eq_ok_iff.1 hdecode)),
      hnews.withNew hnodup hu' hkey hspec hlive hnone clock⟩

/-! ## The regime of a race -/

/-- As many work units have been announced as created. -/
def Balanced (log : List Milestone) : Prop :=
  ∀ k, log.count (.created k) = log.count (.announced k)

/-- A pass may still create work units. -/
structure Open (log : List Milestone) : Prop where
  unsettled : Milestone.settled ∉ log
  balanced : Balanced log

/-- The passes of a race create what is planned from the store that they begin with. When a pass
has tried its work units, everything planned is there, and it has announced what it has created. -/
def race (campaign : Campaign) (repositories : List String) (planned : List WorkUnit) (s : Store) :
    Regime where
  repositories
  inv := Raced campaign planned s
  kept log t := .settled ∈ log → Balanced log ∧ ∀ u ∈ planned, t.find? (Resource.slot u) ≠ none
  kept_grows hgrows h hsettled :=
    ⟨(h hsettled).1, fun u hu => hgrows.find?_ne_none ((h hsettled).2 u hu)⟩

/-- What a race begins with. -/
structure Race (campaign : Campaign) (repositories : List String) (planned : List WorkUnit)
    (s : Store) : Prop where
  reached : s.Reached
  stored : s.campaign? campaign.key = some campaign
  active : campaign.spec.suspended = false
  staying : campaign.metadata.isDeleting = false
  nodup : repositories.Nodup
  planned : ∃ now, planned = s.planned campaign.key repositories now

variable {settings : Settings} {correlation : Uid}

theorem Open.kept (h : Open log) : (race campaign repositories planned s).kept log t :=
  fun hsettled => absurd hsettled h.unsettled

theorem Open.nil : Open [] := ⟨List.not_mem_nil, fun _ => rfl⟩

/-- A work unit is created and then announced. -/
theorem Open.admit (h : Open log) (k : Key) :
    .settled ∉ log ++ [.created k] ∧ Open (log ++ [.created k] ++ [.announced k]) := by
  have hcreated : .settled ∉ log ++ [.created k] := by simp [h.unsettled]
  refine ⟨hcreated, by simpa using hcreated, fun k' => ?_⟩
  have hbalanced := h.balanced k'
  simp only [List.count_append, List.count_singleton]
  by_cases heq : k = k' <;> simp [heq, hbalanced]

namespace Race

variable (r : Race campaign repositories planned s)
include r

theorem uid : ∃ uid, campaign.metadata.uid = some uid := by
  obtain ⟨o, found, hdecode⟩ := Store.campaign?_eq_some.1 r.stored
  obtain ⟨n, -, huid⟩ := r.reached.intact.issued found
  exact ⟨_, (congrArg Metadata.uid (Resource.metadata_of_decode hdecode)).trans huid⟩

theorem nodup_index : (planned.map (·.spec.batchIndex)).Nodup := by
  obtain ⟨now, rfl⟩ := r.planned
  unfold Store.planned
  split
  · exact List.nodup_nil
  · exact List.nodup_nil
  · exact nodup_create_index ..

end Race

/-- A report on the campaign is written during a race. -/
theorem Raced.withReport (h : Raced campaign planned s t) {object : Object} {current : Campaign}
    (found : t.find? { kind := .campaign, key := campaign.key } = some object)
    (hdecode : Resource.decode object = .ok current) (status : Campaign.Status) :
    Raced campaign planned s (t.withRevised { kind := .campaign, key := campaign.key } object
      (Resource.encode { current with status })) := by
  refine h.alikeBut (.withRevised ..) (show Kind.campaign ≠ .workUnit by decide) ?_ fun _ =>
    Slot.ne_of_kind_ne (by decide)
  obtain ⟨c, ⟨status₀, version, rfl⟩, hc⟩ := h.reported
  obtain ⟨object', found', hdecode'⟩ := Store.campaign?_eq_some.1 hc
  cases found.symm.trans found'
  cases hdecode.symm.trans hdecode'
  refine ⟨_, ⟨status, t.revision + 1, rfl⟩, ?_⟩
  exact Eq.trans (Store.campaign?_withRevised hdecode rfl) rfl

/-- A document that can be read during a race could be read from the beginning, if there was
one. -/
theorem Raced.isReadable (h : Raced campaign planned s t)
    (hreadable : t.isReadable (documentSlot campaign)) :
    s.isReadable (documentSlot campaign) := by
  by_contra hnot
  rw [Bool.not_eq_true] at hnot
  rw [Store.isReadable, h.unreadable hnot] at hreadable
  exact absurd hreadable (Bool.eq_false_iff.1 hnot)

/-- The configuration document is written during a race. -/
theorem Raced.withDocument (h : Raced campaign planned s t)
    (hreadable : t.isReadable (documentSlot campaign))
    (halike : Store.AlikeBut (documentSlot campaign) t t') : Raced campaign planned s t' := by
  refine h.alikeBut halike (show Kind.configDocument ≠ .workUnit by decide) ?_ fun hnot _ => ?_
  · obtain ⟨c, hlike, hc⟩ := h.reported
    have hkind : Kind.configDocument ≠ .campaign := by decide
    exact ⟨c, hlike, (halike.campaign? hkind _).trans hc⟩
  · exact absurd (h.isReadable hreadable) (Bool.eq_false_iff.1 hnot)

/-! ## Plans of a race -/

/-- What is listed during a race was listed at the beginning, or has been added. -/
theorem Raced.workUnits (h : Raced campaign planned s t)
    (hunits : (t.list .workUnit (unitFilter campaign)).mapM Resource.decode = .ok units) :
    ∃ units₀ news, (s.list .workUnit (unitFilter campaign)).mapM Resource.decode = .ok units₀ ∧
      units.Perm (units₀ ++ news) ∧ News planned t news := by
  obtain ⟨objects, news, hperm, hdecode, hnews⟩ := h.listed
  obtain ⟨items, hitems, hperm'⟩ := mapM_perm hperm.symm hunits
  have hsplit := (mapM_eq_ok_iff.1 hitems).flip
  have hold := (List.forall₂_take_append _ _ _ hsplit).flip
  have hnew := (List.forall₂_drop_append _ _ _ hsplit).flip
  cases hdecode.symm.trans (mapM_eq_ok_iff.2 hnew)
  exact ⟨_, _, mapM_eq_ok_iff.2 hold, hperm'.symm.trans (.of_eq (List.take_append_drop ..).symm),
    hnews⟩

/-- A plan of a race is a part of the plan that the race begins with, and the rest of that plan is
there. -/
theorem create_of_news (now : Instant) (hactive : campaign.spec.suspended = false)
    (hsep : Separate batches)
    {units₀ : List WorkUnit} (hlike : campaign.Alike c)
    (hplanned : planned = (plan campaign units₀ batches now').create)
    (hperm : units.Perm (units₀ ++ news)) (hnews : News planned t news) :
    (∀ u ∈ (plan c units batches now).create, IsPlanned campaign planned u) ∧
      ∀ u ∈ planned, t.find? (Resource.slot u) ≠ none ∨
        ∃ u' ∈ (plan c units batches now).create, Resource.slot u' = Resource.slot u := by
  have hnodup : (planned.map (·.spec.batchIndex)).Nodup := hplanned ▸ nodup_create_index ..
  rw [plan_of_not_suspended hactive] at hplanned
  have hselected : ∀ u ∈ news, (u.spec.batchIndex, u.spec.repositories) ∈
      selected units₀ batches campaign.spec.policy.parallelism := by
    intro u hu
    obtain ⟨u', hu', hspec, -⟩ := hnews.made u hu
    rw [hplanned] at hu'
    obtain ⟨e, he, rfl⟩ := List.mem_map.1 hu'
    rw [← hspec]
    exact he
  have hcreate : (plan c units batches now).create =
      ((selected units₀ batches campaign.spec.policy.parallelism).filter
        fun e => !news.any (·.spec.batchIndex == e.1)).map
          fun e => workUnit campaign e.1 e.2 now := by
    rw [← selected_append hsep hperm hnews.live hselected hnews.nodup]
    obtain ⟨status, version, rfl⟩ := hlike
    exact congrArg Plan.create (plan_of_not_suspended hactive units batches now)
  rw [hcreate]
  refine ⟨fun u hu => ?_, fun u hu => ?_⟩
  · obtain ⟨e, he, rfl⟩ := List.mem_map.1 hu
    refine ⟨⟨_, _, _, rfl⟩, workUnit campaign e.1 e.2 now', ?_, rfl, rfl⟩
    rw [hplanned]
    exact List.mem_map_of_mem (List.mem_filter.1 he).1
  · by_cases hany : news.any (·.spec.batchIndex == u.spec.batchIndex)
    · obtain ⟨n, hn, hindex⟩ := List.any_eq_true.1 hany
      obtain ⟨n', hn', hspec, hthere⟩ := hnews.made n hn
      have heq : n' = u := List.inj_on_of_nodup_map hnodup hn' hu (by
        rw [hspec]
        exact beq_iff_eq.1 hindex)
      exact .inl (heq ▸ hthere)
    · rw [hplanned] at hu
      obtain ⟨e, he, rfl⟩ := List.mem_map.1 hu
      refine .inr ⟨workUnit campaign e.1 e.2 now, List.mem_map.2 ⟨e, List.mem_filter.2 ⟨he, ?_⟩,
        rfl⟩, rfl⟩
      rw [Bool.not_eq_true']
      exact Bool.eq_false_iff.2 hany

/-! ## Passes of a race -/

/-- All work units are there after a pass has tried them, and it has announced those that it has
created. -/
theorem createAll_abides (r : Race campaign repositories planned s)
    (hunits : ∀ u ∈ units, IsPlanned campaign planned u) (hopen : Open log) (outcome : Outcome) :
    (createAll c correlation outcome units).Abides (race campaign repositories planned s)
      (fun result log' t' => result.2 = none ∧ Open log' ∧
        ∀ u ∈ units, t'.find? (Resource.slot u) ≠ none) log t := by
  induction units generalizing t log outcome with
  | nil => exact .pure hopen.kept ⟨rfl, hopen, fun _ h => absurd h List.not_mem_nil⟩
  | cons u rest ih =>
    obtain ⟨uid, huid⟩ := r.uid
    have hrest : ∀ u' ∈ rest, IsPlanned campaign planned u' :=
      fun u' hu' => hunits u' (List.mem_cons_of_mem _ hu')
    -- the others are tried while this one is there
    have hothers : ∀ {s₁ : Store} {log' : List Milestone} (outcome : Outcome), Open log' →
        s₁.find? (Resource.slot u) ≠ none →
        (createAll c correlation outcome rest).Abides (race campaign repositories planned s)
          (fun result log' t' => result.2 = none ∧ Open log' ∧
            ∀ u' ∈ u :: rest, t'.find? (Resource.slot u') ≠ none) log' s₁ := by
      intro s₁ log' outcome hopen hself
      refine ((ih hrest hopen outcome).frame (fun hgrows h => hgrows.find?_ne_none h) hself).mono
        fun result log' t' _ h => ⟨h.1.1, h.1.2.1, fun u' hu' => ?_⟩
      rcases List.mem_cons.1 hu' with rfl | hu'
      · exact h.2
      · exact h.1.2.2 u' hu'
    unfold createAll
    refine .bind (.create hopen.kept (fun {s₁} clock hlater hnone => ?_)
      fun {s₁ o} hlater found => ?_)
    · obtain ⟨hcreated, hopen'⟩ := hopen.admit u.key
      have hkept : ∀ {s₂ : Store}, (race campaign repositories planned s).kept
          (log ++ Pass.Abides.created u) s₂ := fun h => absurd h hcreated
      have hself : (s₁.withNew clock (Resource.slot u) (Resource.encode u)).find?
          (Resource.slot u) ≠ none := by
        rw [Store.find?_withNew, if_pos rfl]
        exact Option.some_ne_none _
      refine ⟨hlater.inv.withNew huid r.nodup_index (hunits u List.mem_cons_self) hnone clock,
        hkept, ?_⟩
      refine .bind (.measure_quiet rfl hkept fun hlater₂ => .bind (.publish _ hkept
        fun hlater₃ => ⟨hopen'.kept, hothers _ hopen' ?_⟩))
      exact (hlater₂.grows.trans hlater₃.grows).find?_ne_none hself
    · have hself : s₁.find? (Resource.slot u) ≠ none := found ▸ Option.some_ne_none o
      dsimp only
      simp only [StoreError.isAlreadyExists, if_true]
      exact .bind (.publish_quiet rfl hopen.kept fun hlater₂ =>
        hothers _ hopen (hlater₂.grows.find?_ne_none hself))

section passes

variable (hlike : campaign.Alike c)
include hlike

theorem modifyCampaign_abides {change : Campaign → Campaign × Option Unit}
    (hchange : ∀ a, ∃ status, (change a).1 = { a with status })
    (hkept : (race campaign repositories planned s).kept log t) :
    (modifyCampaign settings c change).Abides (race campaign repositories planned s)
      (fun _ log' _ => log' = log) log t := by
  obtain ⟨status₀, version, rfl⟩ := hlike
  have hmetadata : ∀ a, Resource.metadata (change a).1 = Resource.metadata a := by
    intro a
    obtain ⟨status, h⟩ := hchange a
    rw [h]
    rfl
  unfold modifyCampaign
  have hkind : Kind.campaign ≠ .workUnit := by decide
  refine .bind (.modify hkind hmetadata hkept (fun hlater _ => .pure (hlater.kept hkept) rfl)
    (fun hlater _ _ _ => .pure (hlater.kept hkept) rfl) ?_)
  intro s₁ object current changed note hlater found hdecode hnote
  obtain ⟨status, h⟩ := hchange current
  rw [hnote] at h
  cases h
  have hgrows := ((Store.AlikeBut.withRevised s₁ { kind := .campaign, key := campaign.key } object
    (Resource.encode { current with status })).adds hkind).grows
  exact ⟨hlater.inv.withReport found hdecode status,
    .pure ((race campaign repositories planned s).kept_grows hgrows (hlater.kept hkept)) rfl⟩

theorem writeStatus_abides (outcome : Outcome) (admittedAt : Option Instant)
    (hkept : (race campaign repositories planned s).kept log t) :
    (writeStatus settings c now outcome admittedAt).Abides (race campaign repositories planned s)
      (fun _ log' _ => log' = log) log t :=
  modifyCampaign_abides hlike (fun _ => ⟨_, rfl⟩) hkept

theorem reject_abides (e : Error) (hkept : (race campaign repositories planned s).kept log t) :
    (reject settings c correlation now e).Abides (race campaign repositories planned s)
      (fun _ _ _ => True) log t := by
  unfold reject
  refine .bind (.outcome (Program.Abides.mono
    (modifyCampaign_abides hlike (fun _ => ⟨_, rfl⟩) hkept) fun _ _ _ hkept _ => ?_))
  exact .publish_quiet rfl hkept fun _ => trivial

/-- The configuration document could be read from the beginning where a pass has put it. -/
theorem putDocument_abides (batches : List Batch)
    (hkept : (race campaign repositories planned s).kept log t) :
    (putDocument settings c batches).Abides (race campaign repositories planned s)
      (fun _ log' _ => log' = log ∧ s.isReadable (documentSlot campaign)) log t := by
  have hsame : document c batches = document campaign batches := by
    obtain ⟨status, version, rfl⟩ := hlike
    rfl
  have hkind : Kind.configDocument ≠ .workUnit := by decide
  have hdecoded : ∀ {s₁ : Store} {o : Object} {current : ConfigDocument},
      s₁.find? (documentSlot campaign) = some o → Resource.decode o = .ok current →
      s₁.isReadable (documentSlot campaign) := by
    intro s₁ o current found hdecode
    rw [Store.isReadable, found, Option.all_some, hdecode]
    rfl
  unfold putDocument
  rw [hsame]
  refine .bind (.create hkept (fun {s₁} clock hlater hnone => ?_) fun {s₁ o} hlater found => ?_)
  · have hreadable : s₁.isReadable (documentSlot campaign) := by
      rw [Store.isReadable, show s₁.find? (documentSlot campaign) = none from hnone]
      rfl
    have halike := Store.AlikeBut.withNew s₁ clock (documentSlot campaign)
      (Resource.encode (document campaign batches))
    have hkept' := (race campaign repositories planned s).kept_grows (halike.adds hkind).grows
      (hlater.kept hkept)
    rw [show log ++ Pass.Abides.created (document campaign batches) = log from List.append_nil log]
    exact ⟨hlater.inv.withDocument hreadable halike, hkept',
      .pure hkept' ⟨rfl, hlater.inv.isReadable hreadable⟩⟩
  · have hkept := hlater.kept hkept
    dsimp only
    simp only [StoreError.isAlreadyExists, if_true]
    refine .bind (.modify hkind (metadata_refresh _) hkept (fun {s₂} hlater₂ hnone => ?_)
      (fun {s₂ o₂ current same} hlater₂ found₂ hdecode _ => ?_)
      fun {s₂ o₂ current changed note} hlater₂ found₂ hdecode hchange => ?_)
    · refine .pure (hlater₂.kept hkept) ⟨rfl, hlater₂.inv.isReadable ?_⟩
      rw [Store.isReadable, show s₂.find? (documentSlot campaign) = none from hnone]
      rfl
    · exact .pure (hlater₂.kept hkept) ⟨rfl, hlater₂.inv.isReadable (hdecoded found₂ hdecode)⟩
    · have hreadable := hdecoded found₂ hdecode
      have halike := Store.AlikeBut.withRevised s₂ (documentSlot campaign) o₂
        (Resource.encode changed)
      exact ⟨hlater₂.inv.withDocument hreadable halike,
        .pure ((race campaign repositories planned s).kept_grows (halike.adds hkind).grows
          (hlater₂.kept hkept)) ⟨rfl, hlater₂.inv.isReadable hreadable⟩⟩

/-- A pass that has tried the work units of its plan has announced what it has created, and
everything planned is there. -/
theorem admitAll_abides (r : Race campaign repositories planned s) {units₀ : List WorkUnit}
    (hunits₀ : (s.list .workUnit (unitFilter campaign)).mapM Resource.decode = .ok units₀)
    (hperm : units.Perm (units₀ ++ news)) (hnews : News planned t news)
    (hbatches : Partition.batches repositories campaign.spec.policy = .ok batches)
    (hopen : Open log) :
    (admitAll settings c correlation now units batches).Abides
      (race campaign repositories planned s) (fun _ _ _ => True) log t := by
  have hsep := separate_of_batches r.nodup hbatches
  have hstill : ∀ {s₁ s₂ : Store}, s₁.Grows s₂ → News planned s₁ news → News planned s₂ news :=
    fun hgrows h => h.grows hgrows
  unfold admitAll
  refine .bind (((putDocument_abides hlike batches hopen.kept).frame hstill hnews).mono
    fun _ log' t' _ h => ?_)
  obtain ⟨⟨rfl, hreadable⟩, hnews⟩ := h
  have hsurvey : s.survey campaign.key repositories = .admits campaign units₀ batches :=
    Store.survey_eq_admits.2 ⟨r.stored, r.staying, hunits₀, hbatches, hreadable⟩
  obtain ⟨now', hplanned⟩ := r.planned
  rw [Store.planned, hsurvey] at hplanned
  obtain ⟨hpart, hrest⟩ := create_of_news now r.active hsep hlike hplanned hperm hnews
  have hstays : ∀ {s₁ s₂ : Store}, s₁.Grows s₂ →
      (∀ u ∈ planned, s₁.find? (Resource.slot u) ≠ none ∨
        ∃ u' ∈ (plan c units batches now).create, Resource.slot u' = Resource.slot u) →
      ∀ u ∈ planned, s₂.find? (Resource.slot u) ≠ none ∨
        ∃ u' ∈ (plan c units batches now).create, Resource.slot u' = Resource.slot u :=
    fun hgrows h u hu => (h u hu).imp_left hgrows.find?_ne_none
  refine .bind (((createAll_abides r hpart hopen _).frame hstays hrest).mono
    fun result log' t'' _ h => ?_)
  obtain ⟨outcome, failure⟩ := result
  obtain ⟨⟨hdone, hopen', hcreated⟩, hrest⟩ := h
  cases hdone
  have hthere : ∀ u ∈ planned, t''.find? (Resource.slot u) ≠ none := by
    intro u hu
    rcases hrest u hu with hthere | ⟨u', hu', heq⟩
    · exact hthere
    · exact heq ▸ hcreated u' hu'
  have hsettled : ∀ {s₁ : Store}, t''.Grows s₁ →
      (race campaign repositories planned s).kept (log' ++ [.settled]) s₁ := by
    intro s₁ hgrows _
    refine ⟨fun k => ?_, fun u hu => hgrows.find?_ne_none (hthere u hu)⟩
    have hbalanced := hopen'.balanced k
    simpa [List.count_append] using hbalanced
  refine .bind (.measure _ hopen'.kept fun hlater => ⟨hsettled hlater.grows, ?_⟩)
  refine .bind ((writeStatus_abides hlike _ _ (hsettled hlater.grows)).mono
    fun _ _ _ hkept _ => ?_)
  exact .pure hkept trivial

omit hlike in
theorem isClash_of_batches {policy : SchedulingPolicy} {e : Error}
    (h : Partition.batches repositories policy = .error e) : e.isClash = false := by
  unfold Partition.batches at h
  split at h
  · cases h
    rfl
  · split at h
    · cases h
    · split at h <;> cases h

theorem passOver_abides (r : Race campaign repositories planned s) (hopen : Open log) :
    (passOver settings c correlation now).Abides (race campaign repositories planned s)
      (fun _ _ _ => True) log t := by
  have hfilter : unitFilter c = unitFilter campaign := by
    obtain ⟨status, version, rfl⟩ := hlike
    rfl
  have hspec : c.spec = campaign.spec := by
    obtain ⟨status, version, rfl⟩ := hlike
    rfl
  unfold passOver
  refine .bind (.list hopen.kept fun {s₁ units} hlater hunits => ?_)
  rw [hfilter] at hunits
  obtain ⟨units₀, news, hunits₀, hperm, hnews⟩ := hlater.inv.workUnits hunits
  rw [hspec]
  simp only [r.active, Bool.false_eq_true, if_false]
  refine .bind (.discover hopen.kept fun {s₂} hlater₂ => ?_)
  dsimp only [race]
  cases hbatches : Partition.batches repositories campaign.spec.policy with
  | error e =>
    refine .bind ((reject_abides hlike e hopen.kept).mono fun _ _ _ hkept _ => ?_)
    exact .throw hkept (isClash_of_batches hbatches)
  | ok batches =>
    exact admitAll_abides hlike r hunits₀ hperm (hnews.grows hlater₂.grows) hbatches hopen

end passes

theorem pass_abides (r : Race campaign repositories planned s) (hopen : Open log) :
    (pass settings campaign.key now).Abides (race campaign repositories planned s)
      (fun _ _ _ => True) log t := by
  unfold pass
  refine .bind (.find? hopen.kept (fun {s₁ object c} hlater found hdecode => ?_)
    fun _ _ => .pure hopen.kept trivial)
  obtain ⟨c', hlike, hc⟩ := hlater.inv.reported
  cases (Store.campaign?_eq_some.2 ⟨object, found, hdecode⟩).symm.trans hc
  have hstaying : c.metadata.isDeleting = false := by
    obtain ⟨status, version, rfl⟩ := hlike
    exact r.staying
  dsimp only
  simp only [hstaying, Bool.false_eq_true, if_false]
  exact .bind (.correlate hopen.kept fun _ _ => passOver_abides hlike r hopen)

/-- A pass of a race keeps the regime, and does not fail because there is something already. -/
theorem reconcile_abides (r : Race campaign repositories planned s) :
    (reconcile settings campaign.key now).Abides (race campaign repositories planned s)
      (fun result _ _ => ∀ e, result = .error e → e.isClash = false) [] t := by
  unfold reconcile
  refine Program.Abides.bind (Program.Abides.mono (pass_abides r .nil)
    fun result log t hkept hresult => ?_)
  cases result with
  | ok action => exact ⟨hkept, nofun⟩
  | error e =>
    refine .ask hkept fun hlater hserved => ⟨hserved, rfl, hlater.kept hkept, fun e' he' => ?_⟩
    cases he'
    exact hresult

/-! ## Confluence -/

/-- Passes over one campaign, each with its settings and at its time. -/
def racers (key : Key) : Repertoire where
  Job := Settings × Instant
  Result _ := Except Error Action
  program job := reconcile job.1 key job.2

/-- Passes may be started while others are at work, and nothing happens beside them. -/
def raceRules (key : Key) : Rules (racers key) where
  excludes _ _ := False
  outside _ := False

instance (key : Key) : DecidableRel (raceRules key).excludes := fun _ _ => .isFalse id

instance (key : Key) : DecidablePred (raceRules key).outside := fun _ => .isFalse id

instance (key : Key) : DecidablePred (raceRules key).during := fun _ => .isTrue trivial

/-- What passes of a race do not come to. -/
def NoClash (_ : Settings × Instant) (result : Except Error Action) (_ : List Milestone)
    (_ : Store) : Prop :=
  ∀ e, result = .error e → e.isClash = false

theorem Race.upheld (r : Race campaign repositories planned s)
    {w : World (racers campaign.key)} (hsteps : (raceRules campaign.key).Steps { store := s } w)
    (hserved : w.IsServed repositories) :
    (race campaign repositories planned s).Upheld NoClash s w :=
  .of_steps (fun _ h => h) (fun _ _ _ _ => reconcile_abides r) r.reached (.refl r.stored) hsteps
    hserved

/-- Logs that are balanced are so together. -/
theorem Balanced.flatMap {α : Type*} {l : List α} {f : α → List Milestone}
    (h : ∀ a ∈ l, Balanced (f a)) : Balanced (l.flatMap f) := by
  intro k
  rw [List.count_flatMap, List.count_flatMap]
  exact congrArg List.sum (List.map_congr_left fun a ha => h a ha k)

/-- The work units after a race are those that one pass leaves, once everything planned is there. -/
theorem Raced.same (h : Raced campaign planned s t)
    (hplanned : planned = s.planned campaign.key repositories now) (hgrows : s.Grows t)
    (hall : ∀ u ∈ planned, t.find? (Resource.slot u) ≠ none)
    (hsingle : Leaves campaign.key repositories now none s t') (k : Key) :
    (t.find? { kind := .workUnit, key := k }).map Object.workSpec? =
      (t'.find? { kind := .workUnit, key := k }).map Object.workSpec? := by
  obtain ⟨hmade, hother⟩ := hsingle.workUnits
  rw [show within none (s.planned campaign.key repositories now) = planned from hplanned.symm]
    at hmade hother
  have hmissing : ∀ {u}, u ∈ s.missing planned → s.find? (Resource.slot u) = none :=
    fun hu => Option.isNone_iff_eq_none.1 (List.mem_filter.1 hu).2
  cases hbefore : s.find? { kind := .workUnit, key := k } with
  | some o =>
    have hsame := hother k fun u hu heq => by
      subst heq
      cases (hmissing hu).symm.trans hbefore
    rw [hgrows k o hbefore, hsame, hbefore]
  | none =>
    by_cases hplace : ∃ u ∈ planned, u.key = k
    · obtain ⟨u, hu, rfl⟩ := hplace
      obtain ⟨o, found⟩ := Option.ne_none_iff_exists'.1 (hall u hu)
      obtain ⟨u', hu', hkey, hspec⟩ := h.made u.key o hbefore found
      have hnodup : (planned.map WorkUnit.key).Nodup := hplanned ▸ nodup_planned ..
      cases List.inj_on_of_nodup_map hnodup hu' hu hkey
      obtain ⟨o', found', hbare⟩ := hmade u (List.mem_filter.2 ⟨hu, by
        rw [Option.isNone_iff_eq_none]
        exact hbefore⟩)
      have hbody : o'.body = Resource.body u := congrArg Object.body hbare
      rw [show t.find? { kind := .workUnit, key := u.key } = some o from found,
        show t'.find? { kind := .workUnit, key := u.key } = some o' from found',
        Option.map_some, Option.map_some, hspec, Object.workSpec?_of_body hbody]
    · have hnone : t.find? { kind := .workUnit, key := k } = none := by
        by_contra hthere
        obtain ⟨o, found⟩ := Option.ne_none_iff_exists'.1 hthere
        obtain ⟨u, hu, hkey, -⟩ := h.made k o hbefore found
        exact hplace ⟨u, hu, hkey⟩
      have hsame := hother k fun u hu heq => hplace ⟨u, (List.mem_filter.1 hu).1, heq⟩
      rw [hnone, hsame, hbefore]

/-- **Admission passes are confluent.** However passes over a campaign that is neither suspended
nor being deleted are interleaved, as long as nothing fails and they all discover the same
repositories: no work unit is created twice, and no pass fails because there is something already.
When they have all tried their work units, the work units are those of a single pass, and each new
one has been announced once. -/
theorem passes_confluent (settings : Settings) (now clock : Instant) {s : Store} (hs : s.Reached)
    {key : Key} {campaign : Campaign} (hcampaign : s.campaign? key = some campaign)
    (hactive : campaign.spec.suspended = false) (hstaying : campaign.metadata.isDeleting = false)
    {repositories : List String} (hnodup : repositories.Nodup) {w : World (racers key)}
    (hsteps : (raceRules key).Steps { store := s } w) (hserved : w.IsServed repositories) :
    let single := (Stage.run (reconcile settings key now)
      { store := s, repositories := [(key, repositories)], clock }).2
    (∀ k, w.log.count (.created k) =
      if s.find? { kind := .workUnit, key := k } = none ∧
        w.store.find? { kind := .workUnit, key := k } ≠ none then 1 else 0) ∧
    (∀ t ∈ w.tasks, ∀ e, t.rest = .done (.error e) → e.isClash = false) ∧
    (w.tasks ≠ [] → (∀ t ∈ w.tasks, .settled ∈ t.log) →
      ∀ k, (w.store.find? { kind := .workUnit, key := k }).map Object.workSpec? =
          (single.store.find? { kind := .workUnit, key := k }).map Object.workSpec? ∧
        w.log.count (.announced k) = w.log.count (.created k)) := by
  intro single
  have hprepared : Prepared key repositories
      { store := s, repositories := [(key, repositories)], clock } :=
    { calm := ⟨rfl, rfl, rfl, ⟨rfl, rfl, fun _ _ => rfl⟩⟩
      ready := ⟨hs, fun c hc => by cases hcampaign.symm.trans hc; exact hactive⟩
      repositories := by simp [Keyed.find?] }
  obtain ⟨-, hsingle⟩ := hprepared.run settings now
  obtain rfl := hprepared.ready.key_eq hcampaign
  have hrace : Race campaign repositories (s.planned campaign.key repositories now) s :=
    ⟨hs, hcampaign, hactive, hstaying, hnodup, now, rfl⟩
  have hupheld := hrace.upheld hsteps hserved
  refine ⟨fun k => ?_, fun t ht e hdone => ?_, fun hne hsettled k => ⟨?_, ?_⟩⟩
  · have hholds := hupheld.holds k
    unfold Store.holds at hholds
    cases hbefore : s.find? { kind := .workUnit, key := k } with
    | some o =>
      rw [hbefore, hupheld.grows k o hbefore] at hholds
      simpa using hholds
    | none =>
      rw [hbefore] at hholds
      cases hafter : w.store.find? { kind := .workUnit, key := k } <;>
        simpa [hafter] using hholds.symm
  · obtain ⟨_, hresult⟩ := hupheld.of_done ht hdone
    exact hresult e rfl
  · obtain ⟨t, ht⟩ := List.exists_mem_of_ne_nil _ hne
    obtain ⟨-, hall⟩ := hupheld.kept ht (hsettled t ht)
    exact hupheld.inv.same rfl hupheld.grows hall hsingle.leaves k
  · have hbalanced : Balanced w.log :=
      .flatMap fun t ht => (hupheld.kept ht (hsettled t ht)).1
    exact (hbalanced k).symm

/-- Two passes plan the same two work units, and each of them creates one. -/
def sampleRace : List (Turn (racers sampleCampaign.key)) :=
  [.start ({}, .epoch), .start ({}, .epoch)] ++
    [(0, 5), (1, 9), (0, 9), (1, 6)].flatMap fun turns =>
      List.replicate turns.2 (.answer turns.1 .epoch {} ["first", "second"])

theorem passes_confluent_sample :
    let second : Key := { space := "fleet", name := "sweep-batch-1" }
    ∃ w : World (racers sampleCampaign.key),
      (raceRules sampleCampaign.key).Steps { store := sampleStore } w ∧ w.tasks.length = 2 ∧
      (∀ t ∈ w.tasks, .settled ∈ t.log) ∧ w.log.count (.created second) = 1 ∧
      w.log.count (.announced second) = 1 := by
  intro second
  obtain ⟨campaign, hcampaign, hactive, hstaying⟩ := campaign?_sampleStore
  have hplay : ((raceRules sampleCampaign.key).play { store := sampleStore } sampleRace).any
      fun w => w.tasks.length == 2 && w.tasks.all (·.log.contains .settled) &&
        (w.store.find? { kind := .workUnit,
                         key := { space := "fleet", name := "sweep-batch-1" } }).isSome := by
    decide +kernel
  obtain ⟨w, hplay, hw⟩ := Option.any_eq_true _ _ |>.1 hplay
  simp only [Bool.and_eq_true, beq_iff_eq, List.all_eq_true, List.contains_iff_mem] at hw
  obtain ⟨⟨hlength, hsettled⟩, hsecond⟩ := hw
  have hsteps := Rules.steps_of_play hplay
  have hserved : w.IsServed ["first", "second"] := by
    refine Rules.served_of_play (fun turn hturn => ?_) (fun _ h => absurd h List.not_mem_nil) hplay
    rcases List.mem_append.1 hturn with hstart | hanswer
    · obtain rfl | rfl := List.mem_pair.1 hstart <;> trivial
    · obtain ⟨turns, -, hturn⟩ := List.mem_flatMap.1 hanswer
      obtain rfl := List.eq_of_mem_replicate hturn
      exact ⟨rfl, rfl⟩
  obtain ⟨hcreated, -, hsame⟩ := passes_confluent {} .epoch .epoch ⟨_, rfl⟩ hcampaign hactive
    hstaying (show ["first", "second"].Nodup by decide) hsteps hserved
  have hfirst : (sampleStore.find?
      { kind := .workUnit, key := { space := "fleet", name := "sweep-batch-1" } }).isNone := by
    decide +kernel
  have hone : w.log.count (.created second) = 1 := by
    rw [hcreated]
    exact if_pos ⟨Option.isNone_iff_eq_none.1 hfirst, Option.isSome_iff_ne_none.1 hsecond⟩
  have hne : w.tasks ≠ [] := List.ne_nil_of_length_eq_add_one hlength
  exact ⟨w, hsteps, hlength, hsettled, hone, ((hsame hne hsettled second).2).trans hone⟩

end Admission
end CampaignControl
