import CampaignControl.Proofs.Admission.Repetition
import CampaignControl.Proofs.Admission.Requests
import CampaignControl.Proofs.Concurrency.Lone

/-!
# What admission passes come to

What an admission pass alone comes to, whatever faults it meets. Until it knows the repositories of
the campaign it has done nothing (`Admission.lone_reconcile`). After that it brings the document up
to date, creates work units as far as it gets, and reports that, or the report fails
(`Admission.lone_admitAll`). A pass that succeeds has done what a pass without faults does: every
change has been written in one of its attempts, and every work unit of the plan has been created or
was there (`Admission.lone_admits`).
-/

namespace CampaignControl

/-- A store has this campaign in the place of what it had, and is otherwise as it was. -/
structure Store.Replaces (campaign : Campaign) (s s' : Store) : Prop where
  alike : Store.AlikeBut { kind := .campaign, key := campaign.key } s s'
  created : s'.created = s.created
  stored : ∃ version, s'.campaign? campaign.key = some { campaign with
    metadata := { campaign.metadata with version } }

namespace Admission

open Pass

variable {settings : Settings} {key : Key} {campaign current : Campaign} {correlation : Uid}
  {now : Instant} {units : List WorkUnit} {batches : List Batch} {log front rest : List Exchange}
  {s s' : Store}

/-! ## Logs -/

/-- The lists of repositories that have been discovered. -/
def discovered (log : List Exchange) : List (List String) := log.filterMap Exchange.discovered?

theorem discovered_append (front rest : List Exchange) :
    discovered (front ++ rest) = discovered front ++ discovered rest := List.filterMap_append ..

/-- Nothing has been made known, and nothing has been discovered. -/
structure Silent (log : List Exchange) : Prop where
  published : published log = []
  discovered : discovered log = []

namespace Silent

theorem published_append (h : Silent front) (rest : List Exchange) :
    CampaignControl.published (front ++ rest) = CampaignControl.published rest := by
  rw [CampaignControl.published_append, h.published, List.nil_append]

theorem discovered_append (h : Silent front) (rest : List Exchange) :
    Admission.discovered (front ++ rest) = Admission.discovered rest := by
  rw [Admission.discovered_append, h.discovered, List.nil_append]

theorem append (h : Silent front) (h' : Silent rest) : Silent (front ++ rest) :=
  ⟨(h.published_append rest).trans h'.published, (h.discovered_append rest).trans h'.discovered⟩

end Silent

theorem silent_of_storeOnly (h : StoreOnly log) : Silent log where
  published := by
    refine List.filterMap_eq_nil_iff.2 fun e he => ?_
    obtain ⟨r, hr⟩ := h e he
    rw [hr]
    rfl
  discovered := by
    refine List.filterMap_eq_nil_iff.2 fun e he => ?_
    obtain ⟨r, hr⟩ := h e he
    obtain ⟨request, reply, before, after⟩ := e
    cases hr
    rfl

/-! ## Up to the discovery -/

/-- How a pass alone goes: it fails before it knows the repositories of the campaign and has done
nothing, or it comes to what is left of it then. -/
inductive Proceeds (settings : Settings) (campaign : Campaign) (now : Instant) (s : Store) :
    Except Error Action → List Exchange → Store → Prop where
  | idle {log : List Exchange} (e : Error) : Silent log →
    Proceeds settings campaign now s (.error e) log s
  | discovers {result : Except Error Action} {log rest : List Exchange} {s' : Store}
    {correlation : Uid} {units : List WorkUnit} {repositories : List String} :
    (s.list .workUnit (unitFilter campaign)).mapM Resource.decode = .ok units →
    discovered log = repositories :: discovered rest → published log = published rest →
    rest ⊆ log →
    (afterDiscovery settings campaign correlation now units repositories).run.Lone s result rest
      s' →
    Proceeds settings campaign now s result log s'

namespace Proceeds

variable {result : Except Error Action}

theorem of_silent (hfront : Silent front) (h : Proceeds settings campaign now s result log s') :
    Proceeds settings campaign now s result (front ++ log) s' := by
  cases h with
  | idle e hsilent => exact .idle e (hfront.append hsilent)
  | discovers hunits hdiscovered hpublished hsub hrest =>
    exact .discovers hunits ((hfront.discovered_append log).trans hdiscovered)
      ((hfront.published_append log).trans hpublished)
      (List.Subset.trans hsub (List.subset_append_right ..)) hrest

theorem of_silent_cons {x : Exchange} (hx : Silent [x])
    (h : Proceeds settings campaign now s result log s') :
    Proceeds settings campaign now s result (x :: log) s' := .of_silent hx h

theorem append_silent (h : Proceeds settings campaign now s result log s') (hrest : Silent rest) :
    Proceeds settings campaign now s result (log ++ rest) s' := by
  cases h with
  | idle e hsilent => exact .idle e (hsilent.append hrest)
  | discovers hunits hdiscovered hpublished hsub hleft =>
    refine .discovers hunits ?_ ?_ (List.Subset.trans hsub (List.subset_append_left ..)) hleft
    · rw [discovered_append, hrest.discovered, List.append_nil, hdiscovered]
    · rw [published_append, hrest.published, List.append_nil, hpublished]

end Proceeds

theorem lone_passOver {result : Except Error Action} (hs : s.Reached)
    (hactive : campaign.spec.suspended = false)
    (h : (passOver settings campaign correlation now).run.Lone s result log s') :
    Proceeds settings campaign now s result log s' := by
  unfold passOver at h
  rcases lone_bind h with ⟨e, rfl, hlist⟩ | ⟨units, log₁, s₁, log₂, hlist, hlisted, rfl⟩
  · obtain ⟨honly, rfl, -⟩ := lone_list hs.intact.toSound hlist
    exact .idle e (silent_of_storeOnly honly)
  obtain ⟨honly, rfl, hunits⟩ := lone_list hs.intact.toSound hlist
  refine .of_silent (silent_of_storeOnly honly) ?_
  simp only [hactive, Bool.false_eq_true, if_false] at hlisted
  obtain ⟨reply, s₂, log₃, hanswered, hknown, rfl⟩ := lone_bind_request hlisted
  cases (show s₂ = _ from hanswered)
  cases reply with
  | error reason =>
    obtain ⟨rfl, rfl, rfl⟩ := Program.Lone.of_done hknown
    exact .idle _ ⟨rfl, rfl⟩
  | ok repositories =>
    exact .discovers (hunits units rfl) rfl rfl (List.subset_cons_self ..) hknown

theorem lone_pass {result : Except Error Action} (hs : s.Reached)
    (hcampaign : s.campaign? key = some campaign) (hdel : campaign.metadata.isDeleting = false)
    (hactive : campaign.spec.suspended = false)
    (h : (pass settings key now).run.Lone s result log s') :
    Proceeds settings campaign now s result log s' := by
  obtain ⟨o, found, hdecode⟩ := Store.campaign?_eq_some.1 hcampaign
  unfold pass at h
  rcases lone_bind h with ⟨e, rfl, hfind⟩ | ⟨read, log₁, s₁, log₂, hfind, hread, rfl⟩
  · obtain ⟨honly, rfl, -⟩ := lone_find? hs.intact.toSound hfind
    exact .idle e (silent_of_storeOnly honly)
  obtain ⟨honly, rfl, hcases⟩ := lone_find? hs.intact.toSound hfind
  refine .of_silent (silent_of_storeOnly honly) ?_
  obtain rfl : read = some campaign := by
    rcases hcases with ⟨e, he⟩ | ⟨-, hnone⟩ | ⟨o', c, found', hdecode', hc⟩
    · cases he
    · cases found.symm.trans hnone
    · cases found.symm.trans found'
      cases hdecode.symm.trans hdecode'
      cases hc
      rfl
  simp only [hdel, Bool.false_eq_true, if_false] at hread
  obtain ⟨uid, s₂, log₃, hanswered, hover, rfl⟩ := lone_bind_request hread
  cases (show s₂ = _ from hanswered)
  exact .of_silent_cons ⟨rfl, rfl⟩ (lone_passOver hs hactive hover)

/-- A pass alone over a campaign that is there to stay and is not suspended. -/
theorem lone_reconcile {result : Except Error Action} (hs : s.Reached)
    (hcampaign : s.campaign? key = some campaign) (hdel : campaign.metadata.isDeleting = false)
    (hactive : campaign.spec.suspended = false)
    (h : (reconcile settings key now).Lone s result log s') :
    Proceeds settings campaign now s result log s' := by
  obtain ⟨result', log₁, s₁, counts, hpass, hcounts, rfl⟩ := Program.Lone.of_bind h
  have hproceeds := lone_pass hs hcampaign hdel hactive hpass
  cases result' with
  | ok action =>
    obtain ⟨rfl, rfl, rfl⟩ := Program.Lone.of_done hcounts
    exact hproceeds.append_silent ⟨rfl, rfl⟩
  | error e =>
    obtain ⟨_, log₂, s₂, log₃, hmeasure, hdone, rfl⟩ := Program.Lone.of_bind hcounts
    obtain ⟨hanswered, rfl⟩ := hmeasure.of_request
    obtain ⟨rfl, rfl, rfl⟩ := Program.Lone.of_done hdone
    cases (show s' = s₁ from hanswered)
    exact hproceeds.append_silent ⟨rfl, rfl⟩

/-! ## Reports -/

/-- What a change of the campaign comes to. -/
inductive Reports (change : Campaign → Campaign × Option Unit) (current : Campaign) (s : Store) :
    Except Error Unit → Store → Prop where
  | failed (e : Error) : Reports change current s (.error e) s
  | same : (change current).2 = none → Reports change current s (.ok ()) s
  | written {s' : Store} : (change current).2 = some () → s.Replaces (change current).1 s' →
    Reports change current s (.ok ()) s'

theorem lone_modifyCampaign {change : Campaign → Campaign × Option Unit}
    {result : Except Error Unit} (hs : s.Reached)
    (hcurrent : s.campaign? campaign.key = some current)
    (hmetadata : ∀ c, (change c).1.metadata = c.metadata)
    (h : (modifyCampaign settings campaign change).run.Lone s result log s') :
    StoreOnly log ∧ Reports change current s result s' := by
  obtain ⟨o, found, hdecode⟩ := Store.campaign?_eq_some.1 hcurrent
  unfold modifyCampaign at h
  rcases lone_bind h with ⟨e, rfl, hmodify⟩ | ⟨answer, log₁, s₁, log₂, hmodify, hdone, rfl⟩
  · obtain ⟨honly, hmodifies⟩ := lone_modify hs hmetadata hmodify
    cases hmodifies
    exact ⟨honly, .failed e⟩
  obtain ⟨honly, hmodifies⟩ := lone_modify hs hmetadata hmodify
  obtain ⟨rfl, rfl, rfl⟩ := Program.Lone.of_done hdone
  rw [List.append_nil]
  refine ⟨honly, ?_⟩
  cases hmodifies with
  | absent hnone => cases found.symm.trans hnone
  | same found' hdecode' hchange =>
    cases found.symm.trans found'
    cases hdecode.symm.trans hdecode'
    exact .same (congrArg Prod.snd hchange)
  | @written _ _ changed note _ found' hdecode' hchange =>
    cases found.symm.trans found'
    cases hdecode.symm.trans hdecode'
    have hchanged : (change current).1 = changed := congrArg Prod.fst hchange
    have hsame : changed.metadata = current.metadata := hchanged ▸ hmetadata current
    have hkey : changed.key = campaign.key :=
      (congrArg Metadata.key hsame).trans (Store.campaign_key_eq hs hcurrent)
    refine .written (congrArg Prod.snd hchange) ?_
    rw [hchanged]
    refine ⟨?_, rfl, s.revision + 1, ?_⟩
    · rw [hkey]
      exact .withRevised ..
    · rw [hkey, hsame]
      exact Store.campaign?_withRevised hdecode hsame

/-- A report that does not fail tells what it is to tell. -/
theorem lone_writeStatus {outcome : Outcome} {admittedAt : Option Instant} (hs : s.Reached)
    (hcampaign : s.campaign? campaign.key = some campaign)
    (h : (writeStatus settings campaign now outcome admittedAt).run.Lone s (.ok ()) log s') :
    StoreOnly log ∧ Store.AlikeBut { kind := .campaign, key := campaign.key } s s' ∧
      ∃ version, s'.campaign? campaign.key = some { campaign with
        status := outcome.report admittedAt now campaign.status
        metadata := { campaign.metadata with version } } := by
  obtain ⟨honly, hreports⟩ := lone_modifyCampaign hs hcampaign (fun _ => rfl) h
  refine ⟨honly, ?_⟩
  cases hreports with
  | same hnone =>
    dsimp only at hnone
    split at hnone
    · next hsame => exact ⟨.refl .., campaign.metadata.version, by rw [hsame]; exact hcampaign⟩
    · cases hnone
  | written _ hwritten => exact ⟨hwritten.alike, hwritten.stored⟩

/-! ## What a pass puts into the store -/

/-- A document that has been put is there, and could be read if it was there before. -/
theorem lone_putDocument {result : Except Error Unit} (hs : s.Reached)
    (h : (putDocument settings campaign batches).run.Lone s result log s') :
    StoreOnly log ∧ ((∃ e, result = .error e) ∧ s' = s ∨
      result = .ok () ∧ s.isReadable (documentSlot campaign) ∧
      Store.AlikeBut (documentSlot campaign) s s' ∧
      ∃ o, s'.find? (documentSlot campaign) = some o ∧ o.bare = (refreshed
        (document campaign batches) (s.find? (documentSlot campaign))).bare) := by
  have hreadable : ∀ {o : Object} {current : ConfigDocument},
      s.find? (documentSlot campaign) = some o → Resource.decode o = .ok current →
      s.isReadable (documentSlot campaign) := by
    intro o current found hdecode
    rw [Store.isReadable, found, Option.all_some, hdecode]
    rfl
  unfold putDocument at h
  obtain ⟨front, rest, honly, rfl, ⟨stored, clock, found, -, hnext⟩ | ⟨e, hexists, hnext⟩⟩ :=
    lone_bind_create hs h
  · obtain ⟨rfl, rfl, rfl⟩ := Program.Lone.of_done hnext
    rw [slot_document] at found
    rw [List.append_nil, found]
    refine ⟨honly, .inr ⟨rfl, by rw [Store.isReadable, found]; rfl, .withNew ..,
      s.newborn clock (Resource.encode (document campaign batches)), ?_, rfl⟩⟩
    rw [slot_document, Store.find?_withNew, if_pos rfl]
  · dsimp only at hnext
    split at hnext
    · next halready =>
      rcases lone_bind hnext with
        ⟨e, rfl, hmodify⟩ | ⟨answer, log₃, s₂, log₄, hmodify, hdone, rfl⟩
      · obtain ⟨honly', hmodifies⟩ := lone_modify hs (metadata_refresh _) hmodify
        cases hmodifies
        exact ⟨fun x hx => (List.mem_append.1 hx).elim (honly x) (honly' x), .inl ⟨⟨e, rfl⟩, rfl⟩⟩
      obtain ⟨honly', hmodifies⟩ := lone_modify hs (metadata_refresh _) hmodify
      obtain ⟨rfl, rfl, rfl⟩ := Program.Lone.of_done hdone
      rw [List.append_nil]
      refine ⟨fun x hx => (List.mem_append.1 hx).elim (honly x) (honly' x), .inr ⟨rfl, ?_⟩⟩
      cases hmodifies with
      | absent hnone => exact absurd hnone (hexists halready)
      | @same o current same found hdecode hchange =>
        replace found : Store.find? _ (documentSlot campaign) = some o := found
        refine ⟨hreadable found hdecode, .refl .., o, found, ?_⟩
        simp only [found, refreshed, hdecode, hchange]
      | @written o current changed note _ found hdecode hchange =>
        replace found : Store.find? _ (documentSlot campaign) = some o := found
        have hmetadata : changed.metadata = o.metadata := by
          have hsame := metadata_refresh (document campaign batches) current
          rw [hchange] at hsame
          exact hsame.trans (Resource.metadata_of_decode hdecode)
        refine ⟨hreadable found hdecode, .withRevised .., _,
          (Store.find?_withRevised ..).trans (if_pos rfl), ?_⟩
        simp only [found, refreshed, hdecode, hchange]
        exact bare_revised hmetadata
    · obtain ⟨rfl, rfl, rfl⟩ := Program.Lone.of_done hnext
      rw [List.append_nil]
      exact ⟨honly, .inl ⟨⟨_, rfl⟩, rfl⟩⟩

/-- Work units are tried in order, up to one that fails. Those that have been tried are there. -/
theorem lone_createAll {units : List WorkUnit} {outcome : Outcome}
    {result : Except Error (Outcome × Option StoreError)}
    (hnodup : (units.map Resource.slot).Nodup) (hs : s.Reached)
    (h : (createAll campaign correlation outcome units).run.Lone s result log s') :
    ∃ n failure, result = .ok ({ outcome with
        created := outcome.created + (s.missing (units.take n)).length
        live := outcome.live + (units.take n).length }, failure) ∧
      (failure = none → units.take n = units) ∧ Store.Gains (s.missing (units.take n)) s s' ∧
      published log = (units.take n).map (admission campaign correlation s) ∧
      discovered log = [] := by
  induction units generalizing s log outcome with
  | nil =>
    unfold createAll at h
    obtain ⟨rfl, rfl, rfl⟩ := Program.Lone.of_done h
    exact ⟨0, none, rfl, fun _ => rfl, .nil s', rfl, rfl⟩
  | cons u rest ih =>
    obtain ⟨hnot, hrest⟩ := List.nodup_cons.1 hnodup
    unfold createAll at h
    obtain ⟨front, log, honly, rfl, ⟨stored, clock, found, hs₁, hnext⟩ | ⟨e, hexists, hnext⟩⟩ :=
      lone_bind_create hs h
    all_goals
      have hsilent := silent_of_storeOnly honly
      rw [hsilent.published_append, hsilent.discovered_append]
    · obtain ⟨log, htell, rfl⟩ := lone_bind_measure hnext
      obtain ⟨log, hothers, rfl⟩ := lone_bind_publish htell
      obtain ⟨n, failure, rfl, hall, hgains, hpublished, hdiscovered⟩ := ih hrest hs₁ hothers
      -- the other slots are as they were
      have hsame : ∀ u' ∈ rest.take n, (s.withNew clock (Resource.slot u)
          (Resource.encode u)).find? (Resource.slot u') = s.find? (Resource.slot u') := by
        intro u' hu'
        rw [Store.find?_withNew,
          if_neg fun heq => hnot (List.mem_map.2 ⟨u', List.mem_of_mem_take hu', heq.symm⟩)]
      rw [missing_congr hsame] at hgains ⊢
      rw [map_admission_congr hsame] at hpublished
      refine ⟨n + 1, failure, ?_, fun h => congrArg (u :: ·) (hall h), ?_, ?_, hdiscovered⟩
      · rw [List.take_succ_cons, missing_cons_of_none found]
        simp only [List.length_cons, Nat.add_assoc, Nat.add_comm 1]
      · rw [List.take_succ_cons, missing_cons_of_none found]
        exact .cons clock hgains
      · rw [List.take_succ_cons, List.map_cons, admission_of_none found]
        exact congrArg (_ :: ·) hpublished
    · dsimp only at hnext
      split at hnext
      · next halready =>
        obtain ⟨log, hothers, rfl⟩ := lone_bind_publish hnext
        obtain ⟨n, failure, rfl, hall, hgains, hpublished, hdiscovered⟩ := ih hrest hs hothers
        obtain ⟨o, found⟩ := Option.ne_none_iff_exists'.1 (hexists halready)
        refine ⟨n + 1, failure, ?_, fun h => congrArg (u :: ·) (hall h), ?_, ?_, hdiscovered⟩
        · rw [List.take_succ_cons, missing_cons_of_some found]
          simp only [List.length_cons, Nat.add_assoc, Nat.add_comm 1]
        · rw [List.take_succ_cons, missing_cons_of_some found]
          exact hgains
        · rw [List.take_succ_cons, List.map_cons, admission_of_some found]
          exact congrArg (_ :: ·) hpublished
      · obtain ⟨rfl, rfl, rfl⟩ := Program.Lone.of_done hnext
        exact ⟨0, some e, rfl, fun h => absurd h (Option.some_ne_none e), .nil s', rfl, rfl⟩

/-- What a pass has left before its report that has tried these work units. -/
structure Furnished (campaign : Campaign) (units : List WorkUnit) (batches : List Batch)
    (tried : List WorkUnit) (s t : Store) : Prop where
  document : ∃ o, t.find? (documentSlot campaign) = some o ∧
    o.bare = (refreshed (Admission.document campaign batches)
      (s.find? (documentSlot campaign))).bare
  created : ∀ u ∈ s.missing tried, ∃ o, t.find? (Resource.slot u) = some o ∧
    o.bare = (Resource.encode u).bare
  other : ∀ slot, slot ≠ { kind := .campaign, key := campaign.key } →
    slot ≠ documentSlot campaign → (∀ u ∈ s.missing tried, Resource.slot u ≠ slot) →
    t.find? slot = s.find? slot
  listed : ∃ units' news : List WorkUnit,
    (t.list .workUnit (unitFilter campaign)).mapM Resource.decode = .ok units' ∧
    units'.Perm (units ++ news) ∧ (news.map fun u => (u.spec, u.status)).Perm
      ((s.missing tried).map fun u => (u.spec, u.status))

theorem Admitted.furnished {tried : List WorkUnit} {t : Store}
    (h : Admitted campaign units batches now tried s s')
    (halike : Store.AlikeBut { kind := .campaign, key := campaign.key } s' t) :
    Furnished campaign units batches tried s t where
  document := by
    rw [halike.find? (documentSlot campaign)
      (Slot.ne_of_kind_ne (nofun : Kind.configDocument ≠ .campaign))]
    exact h.document
  created u hu := by
    rw [halike.find? (Resource.slot u)
      (Slot.ne_of_kind_ne (nofun : Kind.workUnit ≠ .campaign))]
    exact h.created u hu
  other slot hne hne' hnot := (halike.find? slot hne).trans (h.other slot hne hne' hnot)
  listed := by
    rw [halike.list .workUnit _ (nofun : Kind.workUnit ≠ .campaign)]
    exact h.listed

theorem furnished_of_changes {tried : List WorkUnit} {s₁ t : Store} {uid : Uid}
    (huid : campaign.metadata.uid = some uid)
    (hcampaign : s.campaign? campaign.key = some campaign)
    (hunits : (s.list .workUnit (unitFilter campaign)).mapM Resource.decode = .ok units)
    (htried : tried.Sublist (plan campaign units batches now).create)
    (hput : Store.AlikeBut (documentSlot campaign) s s₁)
    (hdocument : ∃ o, s₁.find? (documentSlot campaign) = some o ∧ o.bare =
      (refreshed (document campaign batches) (s.find? (documentSlot campaign))).bare)
    (hcreated : Store.Gains (s.missing tried) s₁ t) :
    Furnished campaign units batches tried s t ∧
      t.campaign? campaign.key = s.campaign? campaign.key := by
  have hsame : t.campaign? campaign.key = s.campaign? campaign.key := (hcreated.campaign? _).trans
    (hput.campaign? (show Kind.configDocument ≠ .campaign by decide) _)
  obtain ⟨o, -, hdecode⟩ := Store.campaign?_eq_some.1 (hsame.trans hcampaign)
  -- it is what a report would leave, but for this report
  let changed : Campaign := { campaign with
    status := Outcome.report { created := (s.missing tried).length
                               live := liveCount units + tried.length
                               batchCount := batches.length } (some now) now campaign.status }
  have hreported : (t.withRevised { kind := .campaign, key := campaign.key } o
      (Resource.encode changed)).campaign? campaign.key = some { changed with
        metadata := { campaign.metadata with version := t.revision + 1 } } :=
    Store.campaign?_withRevised hdecode rfl
  exact ⟨(admitted_of_changes huid hunits htried hput hdocument hcreated (.withRevised ..)
    hreported).furnished (Store.AlikeBut.withRevised ..).symm, hsame⟩

/-- How a pass goes on that can read everything and knows the batches: it has tried work units and
has come to `t`, and its report on that has failed, or it has been made. -/
structure Tries (settings : Settings) (campaign : Campaign) (correlation : Uid)
    (units : List WorkUnit) (batches : List Batch) (now : Instant) (tried : List WorkUnit)
    (s : Store) (result : Except Error Action) (log : List Exchange) (t s' : Store) : Prop where
  readable : s.isReadable (documentSlot campaign)
  furnished : Furnished campaign units batches tried s t
  untouched : t.campaign? campaign.key = s.campaign? campaign.key
  /-- The pass has requested something when the store was like that. -/
  passed : ∃ e ∈ log, e.before = t
  ends : (∃ e, result = .error e) ∧ s' = t ∨
    Store.AlikeBut { kind := .campaign, key := campaign.key } t s' ∧
    Admitted campaign units batches now tried s s'
  succeeded : ∀ action, result = .ok action →
    Admitted campaign units batches now tried s s' ∧
    tried = (plan campaign units batches now).create ∧
    published log = tried.map (admission campaign correlation s) ∧ discovered log = [] ∧
    action = Outcome.action
      { created := (s.missing tried).length, live := liveCount units + tried.length
        batchCount := batches.length } settings.requeue

/-- A pass that knows the batches has failed at the document and has done nothing, or it has tried
the first work units of its plan. -/
theorem lone_admitAll {result : Except Error Action} (hs : s.Reached)
    (hcampaign : s.campaign? campaign.key = some campaign)
    (hunits : (s.list .workUnit (unitFilter campaign)).mapM Resource.decode = .ok units)
    (h : (admitAll settings campaign correlation now units batches).run.Lone s result log s') :
    (∃ e, result = .error e) ∧ s' = s ∨ ∃ n t, Tries settings campaign correlation units batches
      now ((plan campaign units batches now).create.take n) s result log t s' := by
  obtain ⟨o, found, hdecode⟩ := Store.campaign?_eq_some.1 hcampaign
  obtain ⟨uid, -, huid⟩ := hs.intact.issued found
  rw [← Resource.metadata_of_decode hdecode] at huid
  unfold admitAll at h
  -- the document
  rcases lone_bind h with ⟨e, rfl, hdocument⟩ | ⟨_, log₁, s₁, log₂, hdocument, hrest, rfl⟩
  · obtain ⟨-, ⟨-, hsame⟩ | ⟨heq, -⟩⟩ := lone_putDocument hs hdocument
    · exact .inl ⟨⟨e, rfl⟩, hsame⟩
    · cases heq
  obtain ⟨honly, ⟨⟨_, heq⟩, -⟩ | ⟨-, hreadable, halike₁, hput⟩⟩ := lone_putDocument hs hdocument
  · cases heq
  have hs₁ : s₁.Reached := hdocument.reached hs
  have hunit : ∀ u : WorkUnit, s₁.find? (Resource.slot u) = s.find? (Resource.slot u) :=
    fun u => halike₁.find? _ (Slot.ne_of_kind_ne (nofun : Kind.workUnit ≠ .configDocument))
  -- the work units
  rcases lone_bind hrest with
    ⟨e, rfl, hcreate⟩ | ⟨⟨outcome, failure⟩, log₃, t, log₄, hcreate, hcount, rfl⟩
  · obtain ⟨_, _, heq, -⟩ := lone_createAll (nodup_slots campaign units batches now) hs₁ hcreate
    cases heq
  have hs₂ : t.Reached := hcreate.reached hs₁
  obtain ⟨n, _, heq, hall, hgains, hpublished, hdiscovered⟩ :=
    lone_createAll (nodup_slots campaign units batches now) hs₁ hcreate
  cases heq
  rw [missing_congr fun u _ => hunit u] at hgains hcount
  rw [map_admission_congr fun u _ => hunit u] at hpublished
  have htried : ((plan campaign units batches now).create.take n).Sublist
    (plan campaign units batches now).create := List.take_sublist ..
  obtain ⟨hfurnished, hsame⟩ := furnished_of_changes huid hcampaign hunits htried halike₁ hput
    hgains
  have hcampaign₂ := hsame.trans hcampaign
  -- the report
  obtain ⟨log₄, htell, rfl⟩ := lone_bind_measure hcount
  have hpassed : ∀ m back, ∃ e ∈ log₁ ++ (log₃ ++ Exchange.measurement m t :: back), e.before = t :=
    fun m back => ⟨_, List.mem_append_right _ (List.mem_append_right _ List.mem_cons_self), rfl⟩
  refine .inr ⟨n, t, ?_⟩
  rcases lone_bind htell with ⟨e, rfl, hreport⟩ | ⟨_, log₅, s₃, log₆, hreport, hend, rfl⟩
  · obtain ⟨-, hreports⟩ := lone_modifyCampaign hs₂ hcampaign₂ (fun _ => rfl) hreport
    cases hreports
    exact ⟨hreadable, hfurnished, hsame, hpassed _ _, .inl ⟨⟨e, rfl⟩, rfl⟩, nofun⟩
  obtain ⟨honly', halike₂, version, hafter⟩ := lone_writeStatus hs₂ hcampaign₂ hreport
  simp only [Nat.zero_add, running_plan] at hafter hend
  have hstore : s' = s₃ := by cases failure <;> exact (Program.Lone.of_done hend).2.2
  subst hstore
  have hadmitted := admitted_of_changes huid hunits htried halike₁ hput hgains halike₂ hafter
  refine ⟨hreadable, hfurnished, hsame, hpassed _ _, .inr ⟨halike₂, hadmitted⟩, fun action hok => ?_⟩
  subst hok
  cases failure with
  | some e =>
    obtain ⟨heq, -, -⟩ := Program.Lone.of_done hend
    cases heq
  | none =>
    obtain ⟨heq, rfl, -⟩ := Program.Lone.of_done hend
    cases heq
    have hsilent := silent_of_storeOnly honly
    have hsilent' := silent_of_storeOnly honly'
    refine ⟨hadmitted, hall rfl, ?_, ?_, rfl⟩
    · rw [hsilent.published_append, published_append, hpublished]
      exact (congrArg (_ ++ ·) (hsilent'.append ⟨rfl, rfl⟩).published).trans (List.append_nil _)
    · rw [hsilent.discovered_append, discovered_append, hdiscovered]
      exact (hsilent'.append ⟨rfl, rfl⟩).discovered

/-- **What a pass has done that succeeds.** It has been given repositories and has tried the whole
plan for them: the campaign and the document say what they are to say, every work unit of the plan
is there, and each has been announced. -/
theorem lone_admits {action : Action} (hs : s.Reached)
    (hcampaign : s.campaign? key = some campaign) (hdel : campaign.metadata.isDeleting = false)
    (hactive : campaign.spec.suspended = false)
    (h : (reconcile settings key now).Lone s (.ok action) log s') :
    ∃ correlation units repositories batches,
      s.survey key repositories = .admits campaign units batches ∧ discovered log = [repositories] ∧
      let planned := (plan campaign units batches now).create
      Admitted campaign units batches now planned s s' ∧
      published log = planned.map (admission campaign correlation s) ∧
      action = Outcome.action
        { created := (s.missing planned).length, live := liveCount units + planned.length
          batchCount := batches.length } settings.requeue := by
  obtain rfl : campaign.key = key := Store.campaign_key_eq hs hcampaign
  cases lone_reconcile hs hcampaign hdel hactive h with
  | @discovers _ _ rest _ correlation units repositories hunits hdiscovered hpublished _ hrest =>
    cases hbatches : Partition.batches repositories campaign.spec.policy with
    | error e =>
      rw [afterDiscovery_of_error hbatches] at hrest
      obtain ⟨_, log₁, s₁, log₂, -, hthrow, -⟩ := lone_bind_ok hrest
      obtain ⟨heq, -, -⟩ := Program.Lone.of_done hthrow
      cases heq
    | ok batches =>
      rw [afterDiscovery_of_ok hbatches] at hrest
      obtain ⟨⟨e, heq⟩, -⟩ | ⟨n, t, htries⟩ := lone_admitAll hs hcampaign hunits hrest
      · cases heq
      obtain ⟨hadmitted, hall, htold, hdone, haction⟩ := htries.succeeded action rfl
      rw [hall] at hadmitted htold haction
      exact ⟨correlation, units, repositories, batches,
        Store.survey_eq_admits.2 ⟨hcampaign, hdel, hunits, hbatches, htries.readable⟩,
        hdiscovered.trans (by rw [hdone]), hadmitted, hpublished.trans htold, haction⟩

end Admission
end CampaignControl
