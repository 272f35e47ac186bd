import CampaignControl.Proofs.Admission.Ceiling
import CampaignControl.Proofs.Fleet.Origin

/-!
# No duplicate work

No two live work units of a campaign hold the same repositories, whatever is discovered from pass to
pass and however the policy of the campaign changes, as long as its admission passes follow each
other (`Admission.no_duplicates`).

A pass compares each batch with the work units that it has listed, and by the time it creates a work
unit the listing is out of date. But a live work unit that is stored then has been among the listed
ones, or the pass has created it itself, for another batch of the same partition
(`Admission.Apart.known`). Removals reopen nothing: what is not stored or not live any more does not
come back.
-/

namespace CampaignControl

/-- An object is a live work unit of a campaign and holds these repositories. -/
def Object.Holds (uid : Uid) (repositories : List String) (o : Object) : Prop :=
  o.metadata.owner.map (·.uid) = some uid ∧
    ∃ u : WorkUnit, Resource.decode o = .ok u ∧ u.isLive ∧ u.spec.repositories = repositories

/-- The work unit at a key is a live one of a campaign and holds these repositories. -/
def Store.Holds (uid : Uid) (k : Key) (repositories : List String) (s : Store) : Prop :=
  ∃ o, s.find? { kind := .workUnit, key := k } = some o ∧ o.Holds uid repositories

namespace Admission

open Lifecycle (unitSlot Retains)

variable {uid : Uid} {key k : Key} {repositories : List String} {batch : Batch}
  {past : List Exchange} {s s' : Store} {job : Fleet.Job} {r : StoreRequest}
  {w w' : World Fleet.repertoire} {t : Task Fleet.repertoire}

/-! ## Live work units -/

theorem holds_of_fades {o o' : Object} (hfades : o.Fades o') (h : o'.Holds uid repositories) :
    o.Holds uid repositories := by
  obtain ⟨howner, u', hdecode', hlive, hrepositories⟩ := h
  refine ⟨?_, ?_⟩
  · rcases hfades.owner with heq | heq
    · rwa [heq] at howner
    · rw [heq] at howner
      cases howner
  · rw [Resource.decode_eq_map hfades.body] at hdecode'
    cases hdecode : (Resource.decode o : Except StoreError WorkUnit) with
    | error e =>
      rw [hdecode] at hdecode'
      cases hdecode'
    | ok u =>
      rw [hdecode] at hdecode'
      cases hdecode'
      exact ⟨u, rfl, hlive, hrepositories⟩

theorem holds_of_revised {o : Object} {current changed : WorkUnit}
    (hdecode : Resource.decode o = .ok current) (hretains : Retains current changed)
    (hspec : changed.spec = current.spec)
    (h : (s.revised o (Resource.encode changed)).Holds uid repositories) :
    o.Holds uid repositories := by
  obtain ⟨howner, u, hdecode', hlive, hrepositories⟩ := h
  have hmetadata : current.metadata = o.metadata := Resource.metadata_of_decode hdecode
  cases (Resource.decode_stored _ changed).symm.trans hdecode'
  refine ⟨?_, current, hdecode, hretains.isLive hlive, hspec ▸ hrepositories⟩
  rw [← hmetadata, ← hretains.owner]
  exact howner

theorem holds_of_newborn {campaign : Campaign} {index : Nat} {now created : Instant}
    (h : (s.newborn created (Resource.encode (workUnit campaign index batch now))).Holds uid
      repositories) : campaign.metadata.uid = some uid ∧ repositories = batch := by
  obtain ⟨howner, u, hdecode, -, hrepositories⟩ := h
  cases (Resource.decode_stored _ (workUnit campaign index batch now)).symm.trans hdecode
  exact ⟨(owner_workUnit campaign index batch now).symm.trans howner, hrepositories.symm⟩

/-! ## What a pass creates -/

/-- What a pass has been answered before it creates a work unit of a campaign. -/
inductive Creates (uid : Uid) (key k : Key) (batch : Batch) (past : List Exchange) : Prop where
  | intro {campaign : Campaign} {batches : List Batch} {index : Nat} : Knows key campaign past →
    campaign.metadata.uid = some uid → Cuts campaign batches past → batches[index]? = some batch →
    Uncovered campaign index batch past → k = (indexSlot key index).key →
    Creates uid key k batch past

/-- A pass has come to a batch, and this is the key of its work unit. -/
def Comes (key k : Key) (batch : Batch) (past : List Exchange) : Prop :=
  ∃ campaign batches index, Cuts campaign batches past ∧ batches[index]? = some batch ∧
    k = (indexSlot key index).key

theorem Comes.mono {past' : List Exchange} (h : Comes key k batch past) (hsub : past ⊆ past') :
    Comes key k batch past' := by
  obtain ⟨campaign, batches, index, hcuts, hbatch, hkey⟩ := h
  exact ⟨campaign, batches, index, hcuts.mono hsub, hbatch, hkey⟩

theorem Creates.comes (h : Creates uid key k batch past) : Comes key k batch past := by
  obtain ⟨-, -, hcuts, hbatch, -, hkey⟩ := h
  exact ⟨_, _, _, hcuts, hbatch, hkey⟩

/-- A live work unit that is stored after a request was stored before, or a pass has created it. -/
theorem holds_cases (hpast : Genuine past s) (hasks : Fleet.Asks job past (.store r))
    (hout : s.Outcome r s') (h : s'.Holds uid k repositories) :
    s.Holds uid k repositories ∨ s.find? (unitSlot k) = none ∧
      ∃ key, job.Admits key ∧ Creates uid key k repositories past := by
  obtain ⟨o', found, hholds⟩ := h
  cases Fleet.unit_origin hpast hasks hout found with
  | faded hold hfades => exact .inl ⟨_, hold, holds_of_fades hfades hholds⟩
  | changed hold hdecode hretains hspec =>
    exact .inl ⟨_, hold, holds_of_revised hdecode hretains hspec hholds⟩
  | created now hnone _ hadmits hasks hkey =>
    refine .inr ⟨hnone, _, hadmits, ?_⟩
    cases hasks with
    | createUnit now hknows hcuts _ hbatch _ huncovered =>
      obtain ⟨huid, rfl⟩ := holds_of_newborn hholds
      obtain ⟨rfl, -⟩ := id hknows
      exact .intro hknows huid hcuts hbatch huncovered hkey.symm

/-! ## One partition in each pass -/

/-- Repositories are discovered once. -/
def Single (past : List Exchange) : Prop :=
  ∀ front e back, past = front ++ e :: back → e.request.discovers → Undiscovered front

theorem Single.eq_of_discovers (h : Single past) {e e' : Exchange} (he : e ∈ past)
    (he' : e' ∈ past) (hdiscovers : e.request.discovers) (hdiscovers' : e'.request.discovers) :
    e = e' := by
  obtain ⟨front, back, hpast⟩ := List.append_of_mem he
  rw [hpast] at he'
  rcases List.mem_append.1 he' with hfront | hback
  · exact absurd hdiscovers' (by simp [h front e back hpast hdiscovers e' hfront])
  · rcases List.mem_cons.1 hback with rfl | hback
    · rfl
    · obtain ⟨front', back', rfl⟩ := List.append_of_mem hback
      rw [← List.cons_append, ← List.append_assoc] at hpast
      have hnot := h _ e' back' hpast hdiscovers' e (List.mem_append_right _ List.mem_cons_self)
      exact absurd hdiscovers (by simp [hnot])

/-- All work units that a pass creates are for batches of one partition. -/
theorem Single.batches_eq {campaign campaign' : Campaign} {batches batches' : List Batch}
    (h : Single past) (hcuts : Cuts campaign batches past)
    (hcuts' : Cuts campaign' batches' past) : batches = batches' := by
  obtain ⟨s, repositories, hmem, hbatches⟩ := hcuts
  obtain ⟨s', repositories', hmem', hbatches'⟩ := hcuts'
  have heq := h.eq_of_discovers hmem hmem' rfl rfl
  injection heq with hrequest hreply
  cases hrequest
  cases hreply
  exact Except.ok.inj (hbatches.symm.trans hbatches')

/-! ## Passes that follow each other -/

/-- Admission passes over one campaign follow each other. Everything else goes on side by side, and
anybody may delete anything in any way. -/
def seriesRules : Rules Fleet.repertoire where
  excludes job job' := ∃ key, Fleet.Job.Admits key job ∧ Fleet.Job.Admits key job'
  outside := Controller.IsOutside

/-- No discovery has listed a repository twice. -/
def Distinct (w : World Fleet.repertoire) : Prop :=
  ∀ t ∈ w.tasks, ∀ e ∈ t.past, ∀ answer, e.discovered? = some answer → answer.Nodup

theorem Distinct.before_move {rules : Rules Fleet.repertoire} (h : Distinct w')
    (hmove : rules.Move w w') : Distinct w := by
  intro t ht e he
  obtain ⟨t', ht', -, hpast⟩ := hmove.exists_past ht
  exact h t' ht' e (hpast.subset he)

theorem single_past {rules : Rules Fleet.repertoire} (hs : s.Sound)
    (hsteps : rules.Steps { store := s } w) (ht : t ∈ w.tasks)
    (hadmits : Fleet.Job.Admits key t.job) : Single t.past := by
  intro front e back hpast hdiscovers
  obtain ⟨w₀, w₁, htook⟩ := hsteps.exists_exchange ht hpast
  have hasks := hadmits.asks (htook.allowed Fleet.program_heeds hs)
  generalize e.request = r at hasks hdiscovers
  cases hasks with
  | discover _ hfresh => exact hfresh
  | _ => cases hdiscovers

/-! ## Work units that differ -/

theorem sameRepositories_of_mem_iff {a b : List String} (ha : a.Nodup) (hb : b.Nodup)
    (h : ∀ repository, repository ∈ a ↔ repository ∈ b) : sameRepositories a b :=
  (sameRepositories_iff_perm ha hb).2 ((List.perm_ext_iff_of_nodup ha hb).2 h)

section
variable (hdistinct : ∀ e ∈ past, ∀ answer, e.discovered? = some answer → answer.Nodup)
include hdistinct

theorem Cuts.exists_nodup {campaign : Campaign} {batches : List Batch}
    (h : Cuts campaign batches past) : ∃ repositories policy, repositories.Nodup ∧
      Partition.batches repositories policy = .ok batches := by
  obtain ⟨s, repositories, hmem, hbatches⟩ := h
  exact ⟨repositories, campaign.spec.policy, hdistinct _ hmem _ rfl, hbatches⟩

theorem Comes.nodup (h : Comes key k batch past) : batch.Nodup := by
  obtain ⟨campaign, batches, index, hcuts, hbatch, -⟩ := h
  obtain ⟨repositories, policy, hnodup, hbatches⟩ := hcuts.exists_nodup hdistinct
  rw [← (Partition.cut_of_batches hbatches).flatten] at hnodup
  exact (List.nodup_flatten.1 hnodup).1 batch (List.mem_of_getElem? hbatch)

/-- A pass comes to a set of repositories once. -/
theorem Comes.key_eq (hsingle : Single past) {k' : Key} {batch' : Batch}
    (h : Comes key k batch past) (h' : Comes key k' batch' past)
    (hsame : ∀ repository, repository ∈ batch ↔ repository ∈ batch') : k = k' := by
  have hsame := sameRepositories_of_mem_iff (h.nodup hdistinct) (h'.nodup hdistinct) hsame
  obtain ⟨campaign, batches, index, hcuts, hbatch, rfl⟩ := h
  obtain ⟨campaign', batches', index', hcuts', hbatch', rfl⟩ := h'
  obtain ⟨repositories, policy, hnodup, hbatches⟩ := hcuts.exists_nodup hdistinct
  cases hsingle.batches_eq hcuts hcuts'
  rw [separate_of_batches hnodup hbatches _ _ _ _ hbatch hbatch' hsame]

end

/-- The live work units of a campaign hold different repositories. -/
structure Apart (uid : Uid) (key : Key) (s : Store) : Prop where
  space : ∀ {k repositories}, s.Holds uid k repositories → k.space = key.space
  nodup : ∀ {k repositories}, s.Holds uid k repositories → repositories.Nodup
  key_eq : ∀ {k k' repositories repositories'}, s.Holds uid k repositories →
    s.Holds uid k' repositories' →
    (∀ repository, repository ∈ repositories ↔ repository ∈ repositories') → k = k'

/-- An admission pass that is in progress has met all live work units of the campaign, or come to
their batches. -/
def Informed (uid : Uid) (key : Key) (s : Store) (t : Task Fleet.repertoire) : Prop :=
  Fleet.Job.Admits key t.job → t.InProgress → ∀ e ∈ t.past, ∀ {k repositories},
    s.Holds uid k repositories →
      e.before.Holds uid k repositories ∨ Comes key k repositories t.past

/-- What a pass has met covers its batch, or its work unit is the one to be created. -/
theorem Creates.covers {e : Exchange} (he : e.before.Sound) {campaign : Campaign}
    {units : List WorkUnit}
    (hunits : (e.before.list .workUnit (unitFilter campaign)).mapM Resource.decode = .ok units)
    (huid : campaign.metadata.uid = some uid) (hspace : k.space = campaign.key.space)
    (h : e.before.Holds uid k repositories)
    (hsame : sameRepositories repositories batch) (index : Nat) :
    isCovered units index batch := by
  obtain ⟨o, hfind, howner, u, hdecode, hlive, hrepositories⟩ := h
  have hkey : o.key = k := he.key_eq hfind
  have hselects : (unitFilter campaign).selects o.metadata := by
    have hplace : o.metadata.key.space = campaign.key.space := hspace ▸ congrArg Key.space hkey
    simp [unitFilter, huid, Filter.selects, howner, hplace]
  obtain ⟨u', hu', hdecode'⟩ :=
    exists_mem_of_mapM hunits ((Store.mem_list_iff he).2 ⟨hkey.symm ▸ hfind, hselects⟩)
  cases hdecode.symm.trans hdecode'
  exact isCovered_iff.2 ⟨u, hu', .inr ⟨hlive, hrepositories ▸ hsame⟩⟩

/-- A work unit that is created holds other repositories than any live one. -/
theorem Creates.key_eq (h : Creates uid key k batch t.past) (hpast : Genuine t.past s)
    (hdistinct : ∀ e ∈ t.past, ∀ answer, e.discovered? = some answer → answer.Nodup)
    (hsingle : Single t.past) (hapart : Apart uid key s) (hinformed : Informed uid key s t)
    (hadmits : Fleet.Job.Admits key t.job) (hprogress : t.InProgress) {k' : Key}
    (hold : s.Holds uid k' repositories)
    (hsame : ∀ repository, repository ∈ repositories ↔ repository ∈ batch) : k' = k := by
  have hcomes := h.comes
  obtain ⟨⟨hkey, -⟩, huid, hcuts, hbatch, ⟨units, ⟨e, he, hunits⟩, hcovered⟩, -⟩ := h
  rcases hinformed hadmits hprogress e he hold with hmet | hcomes'
  · have hsame := sameRepositories_of_mem_iff (hapart.nodup hold) (hcomes.nodup hdistinct) hsame
    have hcovers := Creates.covers (hpast e he).sound hunits huid
      ((hapart.space hold).trans (congrArg Key.space hkey.symm)) hmet hsame
    rw [hcovers] at hcovered
    cases hcovered
  · exact hcomes'.key_eq hdistinct hsingle hcomes hsame

/-! ## Every step -/

/-- What is upheld: the live work units differ, and the passes know what they have to. -/
structure Upright (uid : Uid) (key : Key) (w : World Fleet.repertoire) : Prop where
  apart : Apart uid key w.store
  informed : ∀ t ∈ w.tasks, Informed uid key w.store t

theorem Upright.of_le {s' : Store} {tasks : List (Task Fleet.repertoire)} (h : Upright uid key w)
    (hle : ∀ {k repositories}, s'.Holds uid k repositories → w.store.Holds uid k repositories)
    (htasks : ∀ t ∈ tasks, t ∈ w.tasks ∨ t.past = [] ∨ ¬ t.InProgress) :
    Upright uid key { store := s', tasks } where
  apart :=
    { space := fun h' => h.apart.space (hle h')
      nodup := fun h' => h.apart.nodup (hle h')
      key_eq := fun h' h'' => h.apart.key_eq (hle h') (hle h'') }
  informed t ht := by
    intro hadmits hprogress e he k repositories h'
    rcases htasks t ht with ht | hnone | hnot
    · exact h.informed t ht hadmits hprogress e he (hle h')
    · rw [hnone] at he
      cases he
    · exact absurd hprogress hnot

section
variable (hs : s.Sound) (hsteps : seriesRules.Steps { store := s } w) (hdistinct : Distinct w)
  (hkey : ∀ key', w.Met (campaignSlot key') uid → key' = key)
include hs hsteps

/-- A live work unit of the campaign is created by an admission pass over it. -/
theorem holds_answered (hkey : ∀ key', w.Met (campaignSlot key') uid → key' = key)
    (ht : t ∈ w.tasks) {r : Request} {next : r.Reply → Program (Fleet.repertoire.Result t.job)}
    {reply : r.Reply} (hrest : t.rest = .ask r next) (hanswered : r.Answered w.store reply s')
    (h : s'.Holds uid k repositories) :
    w.store.Holds uid k repositories ∨
      Fleet.Job.Admits key t.job ∧ Creates uid key k repositories t.past := by
  cases r with
  | discover | correlate | publish | measure =>
    cases hanswered
    exact .inl h
  | store r =>
    have hpast := hsteps.genuine hs ht
    have hasks := hsteps.heeds Fleet.program_heeds hs t ht
    rw [hrest] at hasks
    rcases holds_cases hpast hasks.1 (hanswered.outcome (hsteps.sound hs)) h with
      hold | ⟨-, key', hadmits, hcreates⟩
    · exact .inl hold
    · have hmet : w.Met (campaignSlot key') uid := by
        obtain ⟨hknows, huid, -⟩ := id hcreates
        obtain ⟨e, he, o, hfind, hmetadata⟩ := hknows.exists_stored
        exact ⟨t, ht, e, he, o, hfind, (congrArg Metadata.uid hmetadata).trans huid⟩
      cases hkey key' hmet
      exact .inr ⟨hadmits, hcreates⟩

include hdistinct hkey

theorem Upright.answer (h : Upright uid key w) {front back : List (Task Fleet.repertoire)}
    {r : Request} {next : r.Reply → Program (Fleet.repertoire.Result t.job)} {reply : r.Reply}
    (htasks : w.tasks = front ++ t :: back) (hkept : t.abandoned = false)
    (hrest : t.rest = .ask r next) (hanswered : r.Answered w.store reply s') :
    Upright uid key
      { store := s', tasks := front ++ t.answered r next reply w.store s' :: back } := by
  have ht : t ∈ w.tasks := htasks ▸ List.mem_append_right _ List.mem_cons_self
  have hprogress : t.InProgress := ⟨hkept, by rw [hrest]; rfl⟩
  have hcases : ∀ {k repositories}, s'.Holds uid k repositories →
      w.store.Holds uid k repositories ∨
        Fleet.Job.Admits key t.job ∧ Creates uid key k repositories t.past :=
    holds_answered hs hsteps hkey ht hrest hanswered
  have hpast := hsteps.genuine hs ht
  have hsingle : Fleet.Job.Admits key t.job → Single t.past := single_past hs hsteps ht
  have hnew : ∀ {k k' repositories batch}, Fleet.Job.Admits key t.job →
      Creates uid key k batch t.past → w.store.Holds uid k' repositories →
      (∀ repository, repository ∈ repositories ↔ repository ∈ batch) → k' = k :=
    fun hadmits hcreates => hcreates.key_eq hpast (hdistinct t ht) (hsingle hadmits) h.apart
      (h.informed t ht) hadmits hprogress
  refine ⟨⟨?_, ?_, ?_⟩, fun t' ht' => ?_⟩
  · intro k repositories h'
    rcases hcases h' with hold | ⟨-, hcreates⟩
    · exact h.apart.space hold
    · obtain ⟨-, -, -, -, -, rfl⟩ := hcreates
      rfl
  · intro k repositories h'
    rcases hcases h' with hold | ⟨-, hcreates⟩
    · exact h.apart.nodup hold
    · exact hcreates.comes.nodup (hdistinct t ht)
  · intro k k' repositories repositories' h' h'' hsame
    rcases hcases h' with hold | ⟨hadmits, hcreates⟩ <;>
      rcases hcases h'' with hold' | ⟨hadmits', hcreates'⟩
    · exact h.apart.key_eq hold hold' hsame
    · exact hnew hadmits' hcreates' hold hsame
    · exact (hnew hadmits hcreates hold' fun repository => (hsame repository).symm).symm
    · exact hcreates.comes.key_eq (hdistinct t ht) (hsingle hadmits) hcreates'.comes hsame
  · -- a pass in progress over the same campaign is the one that has been answered
    have hbeside : t' ∈ front ∨ t' ∈ back → Informed uid key s' t' := by
      intro hwhere hadmits' hprogress' e he k repositories h'
      have ht' : t' ∈ w.tasks := by
        rw [htasks]
        rcases hwhere with hfront | hback
        · exact List.mem_append_left _ hfront
        · exact List.mem_append_right _ (List.mem_cons_of_mem _ hback)
      rcases hcases h' with hold | ⟨hadmits, -⟩
      · exact h.informed t' ht' hadmits' hprogress' e he hold
      · have hex := hsteps.exclusive
        rw [htasks] at hex
        obtain ⟨-, hback, hcross⟩ := List.pairwise_append.1 hex
        rcases hwhere with hfront | hback'
        · exact absurd ⟨key, hadmits', hadmits⟩
            (hcross t' hfront t List.mem_cons_self hprogress' hprogress)
        · exact absurd ⟨key, hadmits, hadmits'⟩
            ((List.pairwise_cons.1 hback).1 t' hback' hprogress hprogress')
    rcases List.mem_append.1 ht' with hfront | hrear
    · exact hbeside (.inl hfront)
    · rcases List.mem_cons.1 hrear with rfl | hback
      · intro hadmits _ e he k repositories h'
        have hsub := List.subset_append_left t.past
          [{ request := r, reply, before := w.store, after := s' }]
        rcases hcases h' with hold | ⟨-, hcreates⟩
        · rcases List.mem_append.1 he with he | he
          · exact (h.informed t ht hadmits hprogress e he hold).imp_right (·.mono hsub)
          · cases List.mem_singleton.1 he
            exact .inl hold
        · exact .inr (hcreates.comes.mono hsub)
      · exact hbeside (.inr hback)

theorem Upright.move (h : Upright uid key w) (hmove : seriesRules.Move w w') :
    Upright uid key w' := by
  cases hmove with
  | start job hfree =>
    refine h.of_le id fun t ht => ?_
    rcases List.mem_append.1 ht with ht | ht
    · exact .inl ht
    · cases List.mem_singleton.1 ht
      exact .inr (.inl rfl)
  | @abandon front back t htasks =>
    refine h.of_le id fun t' ht' => ?_
    rw [htasks]
    rcases List.mem_append.1 ht' with hfront | hrear
    · exact .inl (List.mem_append_left _ hfront)
    · rcases List.mem_cons.1 hrear with rfl | hback
      · exact .inr (.inr fun hprogress => absurd hprogress.1 (by simp [Task.abandon]))
      · exact .inl (List.mem_append_right _ (List.mem_cons_of_mem _ hback))
  | answer htasks hkept hrest hanswered =>
    exact h.answer hs hsteps hdistinct hkey htasks hkept hrest hanswered
  | outside now r hr =>
    refine h.of_le ?_ fun t ht => .inl ht
    rintro k repositories ⟨o', found, hholds⟩
    obtain ⟨o, hold, hfades⟩ :=
      Fleet.unit_faded hr (Store.serve_outcome (hsteps.sound hs) now r) found
    exact ⟨o, hold, holds_of_fades hfades hholds⟩

end

/-! ## No duplicates -/

theorem upright (hs : s.Sound) (hnone : ∀ {k repositories}, ¬ s.Holds uid k repositories)
    (hsteps : seriesRules.Steps { store := s } w) (hdistinct : Distinct w)
    (hkey : ∀ key', w.Met (campaignSlot key') uid → key' = key) : Upright uid key w := by
  induction hsteps with
  | refl =>
    exact ⟨⟨fun h => (hnone h).elim, fun h => (hnone h).elim, fun h => (hnone h).elim⟩,
      fun t ht => absurd ht List.not_mem_nil⟩
  | tail hsteps hstep ih =>
    have hdistinct := hdistinct.before_move hstep.move
    have hkey := fun key' hmet => hkey key' (World.Met.move hmet hstep.move)
    exact (ih hdistinct hkey).move hs hsteps hdistinct hkey hstep.move

/-- **No duplicate live work.** At first no work unit of a campaign is stored. Whatever happens
then, as long as its admission passes follow each other and no discovery lists a repository twice,
no two live work units of the campaign hold the same repositories in any order. -/
theorem no_duplicates (hs : s.Reached)
    (hnone : ∀ slot o, s.find? slot = some o → slot.kind = .workUnit →
      o.metadata.owner.map (·.uid) ≠ some uid)
    (hsteps : seriesRules.Steps { store := s } w) (hdistinct : Distinct w)
    {k k' : Key} (hne : k ≠ k') {o o' : Object} {u u' : WorkUnit}
    (found : w.store.find? (unitSlot k) = some o) (found' : w.store.find? (unitSlot k') = some o')
    (howner : o.metadata.owner.map (·.uid) = some uid)
    (howner' : o'.metadata.owner.map (·.uid) = some uid)
    (hdecode : Resource.decode o = .ok u) (hdecode' : Resource.decode o' = .ok u')
    (hlive : u.isLive) (hlive' : u'.isLive) :
    ¬ ∀ repository, repository ∈ u.spec.repositories ↔ repository ∈ u'.spec.repositories := by
  intro hsame
  have hsound := hs.intact.toSound
  have hempty : ∀ {k repositories}, ¬ s.Holds uid k repositories := by
    rintro k repositories ⟨o, found, howner, -⟩
    exact hnone _ o found rfl howner
  have hholds : w.store.Holds uid k u.spec.repositories :=
    ⟨o, found, howner, u, hdecode, hlive, rfl⟩
  have hholds' : w.store.Holds uid k' u'.spec.repositories :=
    ⟨o', found', howner', u', hdecode', hlive', rfl⟩
  -- the campaign is at one key, if it has been met at all
  by_cases hmet : ∃ key, w.Met (campaignSlot key) uid
  · obtain ⟨key, hmet⟩ := hmet
    have hkey : ∀ key', w.Met (campaignSlot key') uid → key' = key :=
      fun key' hmet' => congrArg Slot.key (hsteps.met_inj hsound hmet' hmet)
    exact hne ((upright hsound hempty hsteps hdistinct hkey).apart.key_eq hholds hholds' hsame)
  · have hkey : ∀ key', w.Met (campaignSlot key') uid → key' = k :=
      fun key' hmet' => absurd ⟨key', hmet'⟩ hmet
    exact hne ((upright hsound hempty hsteps hdistinct hkey).apart.key_eq hholds hholds' hsame)

instance : DecidableRel seriesRules.excludes
  | .report .., _ => isFalse (by rintro ⟨key, h, -⟩; exact h)
  | .pass _, .report .. => isFalse (by rintro ⟨key, -, h⟩; exact h)
  | .pass (.lifecycle ..), .pass _ => isFalse (by rintro ⟨key, h, -⟩; exact h)
  | .pass (.admission ..), .pass (.lifecycle ..) => isFalse (by rintro ⟨key, -, h⟩; exact h)
  | .pass (.admission _ key _), .pass (.admission _ key' _) =>
    decidable_of_iff (key = key')
      ⟨fun h => ⟨key, rfl, h.symm⟩, fun ⟨_, h, h'⟩ => h.trans h'.symm⟩

instance : DecidablePred seriesRules.outside :=
  inferInstanceAs (DecidablePred Controller.IsOutside)

instance : DecidablePred seriesRules.during := fun _ => .isTrue trivial

/-- A campaign with one repository in each batch, and two work units at a time. -/
def sampleSingles : Campaign where
  metadata := { key := { space := "fleet", name := "singles" } }
  spec := { policy := { strategy := .fixedBatchSize, batchSize := 1, parallelism := 2 } }

/-- A pass over the campaign from its start to its end. -/
def samplePass (index : Nat) (repositories : List String) : List (Turn Fleet.repertoire) :=
  .start (.pass (.admission {} sampleSingles.key .epoch)) ::
    List.replicate 14 (.answer index .epoch {} repositories)

/-- A repository moves from the first batch to the second and back. -/
def sampleMoves : List (Turn Fleet.repertoire) :=
  .outside .epoch (.create .campaign (Resource.encode sampleSingles)) ::
    (samplePass 0 ["first"] ++ samplePass 1 ["second", "first"] ++ samplePass 2 ["first", "second"])

theorem exists_of_isLiveUnit {o : Object} (h : o.isLiveUnit) :
    ∃ u : WorkUnit, Resource.decode o = .ok u ∧ u.isLive := by
  unfold Object.isLiveUnit at h
  split at h
  · next u hdecode => exact ⟨u, hdecode, h⟩
  · cases h

/-- Where a batch has moved, no second work unit is created for it. -/
theorem no_duplicates_sample : ∃ (w : World Fleet.repertoire) (o o' : Object) (u u' : WorkUnit),
    ({} : Store).Reached ∧ seriesRules.Steps {} w ∧ Distinct w ∧
    w.store.find? (indexSlot sampleSingles.key 0) = some o ∧
    w.store.find? (indexSlot sampleSingles.key 1) = some o' ∧
    Resource.decode o = .ok u ∧ Resource.decode o' = .ok u' ∧ u.isLive ∧ u'.isLive ∧
    ¬ ∀ repository, repository ∈ u.spec.repositories ↔ repository ∈ u'.spec.repositories := by
  have hplay : (seriesRules.play {} sampleMoves).any fun w =>
      (w.tasks.all fun t => t.past.all fun e => e.discovered?.all fun answer => answer.Nodup) &&
      (w.store.find? (indexSlot sampleSingles.key 0)).any fun o =>
        (w.store.find? (indexSlot sampleSingles.key 1)).any fun o' =>
          Store.isLiveOwned (.issued 1) (indexSlot sampleSingles.key 0, o) &&
            Store.isLiveOwned (.issued 1) (indexSlot sampleSingles.key 1, o') := by
    decide +kernel
  obtain ⟨w, hsteps, hcheck⟩ := Rules.exists_of_play hplay
  simp only [Bool.and_eq_true, List.all_eq_true, Option.any_eq_true, isLiveOwned_iff] at hcheck
  obtain ⟨hall, o, found, o', found', ⟨-, howner, hlive⟩, -, howner', hlive'⟩ := hcheck
  obtain ⟨u, hdecode, hlive⟩ := exists_of_isLiveUnit hlive
  obtain ⟨u', hdecode', hlive'⟩ := exists_of_isLiveUnit hlive'
  have hs : ({} : Store).Reached := ⟨[], rfl⟩
  have hdistinct : Distinct w := by
    intro t ht e he answer hanswer
    have hnodup := hall t ht e he
    rw [hanswer] at hnodup
    exact of_decide_eq_true hnodup
  exact ⟨w, o, o', u, u', hs, hsteps, hdistinct, found, found', hdecode, hdecode', hlive, hlive',
    no_duplicates hs (fun _ _ hfind => nomatch hfind) hsteps hdistinct (by decide) found found'
      howner howner' hdecode hdecode' hlive hlive'⟩

end Admission
end CampaignControl
