import CampaignControl.Proofs.Admission.Alignment
import CampaignControl.Proofs.Admission.Attempts
import CampaignControl.Proofs.Admission.Documents
import CampaignControl.Proofs.Admission.Duplicates
import CampaignControl.Proofs.Partition.Balance

/-!
# Repositories that are appended

Where batches are cut by size, a full batch stays what it is when repositories are appended, and a
batch that is not full goes on (`Partition.exists_batch_of_append`). So with discoveries that only
ever append (`Admission.Growing`) and passes that follow each other, a worker finds the repositories
of its work unit in the document at any time after its admission (`Admission.full_batches_stay`).

The document has the batches of the pass when a work unit is created (`Admission.Rooted`), and from
then on the batches of what some later pass has discovered (`Admission.Covers`).
-/

namespace CampaignControl

namespace Partition

variable {policy : SchedulingPolicy} {repositories later : List String} {cut cut' : List Batch}

theorem batches_of_fixedBatchSize (hstrategy : policy.strategy = .fixedBatchSize)
    (hsize : 0 < policy.batchSize.toInt) (repositories : List String) :
    batches repositories policy = .ok (bySize policy.batchSize.toInt.toNat repositories) := by
  have hnot : ¬ (policy.strategy ≠ .none ∧ policy.batchSize.toInt ≤ 0) :=
    fun h => Int.not_le.2 hsize h.2
  rw [batches, if_neg hnot, hstrategy]
  split
  · next hnil => rw [hnil, bySize, if_pos (.inl rfl)]
  · rfl

/-- The batch at an index goes on where the list does, and it is the same one if it is full. -/
theorem exists_batch_of_append (hstrategy : policy.strategy = .fixedBatchSize)
    (hsize : 0 < policy.batchSize.toInt) (happends : repositories <+: later)
    (hcut : batches repositories policy = .ok cut) (hcut' : batches later policy = .ok cut')
    {i : Nat} {batch : Batch} (hbatch : cut[i]? = some batch) :
    ∃ batch', cut'[i]? = some batch' ∧ batch <+: batch' ∧
      (batch.length = policy.batchSize.toInt.toNat → batch' = batch) := by
  have hpos : 0 < policy.batchSize.toInt.toNat := Int.lt_toNat.2 hsize
  cases (batches_of_fixedBatchSize hstrategy hsize repositories).symm.trans hcut
  cases (batches_of_fixedBatchSize hstrategy hsize later).symm.trans hcut'
  obtain ⟨more, rfl⟩ := happends
  rw [getElem?_bySize hpos] at hbatch
  split at hbatch
  · next hlt =>
    cases hbatch
    have hgoes : (repositories.drop (i * policy.batchSize.toInt.toNat)).take
        policy.batchSize.toInt.toNat <+:
        ((repositories ++ more).drop (i * policy.batchSize.toInt.toNat)).take
          policy.batchSize.toInt.toNat := by
      rw [List.drop_append_of_le_length (Nat.le_of_lt hlt)]
      exact (List.prefix_append ..).take _
    refine ⟨_, ?_, hgoes, fun hfull => ?_⟩
    · rw [getElem?_bySize hpos, if_pos (by rw [List.length_append]; omega)]
    · refine (hgoes.eq_of_length_le ?_).symm
      rw [hfull]
      exact List.length_take_le ..
  · cases hbatch

end Partition

namespace Admission

open Lifecycle (unitSlot)

variable {excludes : Fleet.Job → Fleet.Job → Prop} {key k : Key} {policy : SchedulingPolicy}
  {repositories : List String} {batches : List Batch} {past past' : List Exchange}
  {s : Store} {w w' : World Fleet.repertoire} {t : Task Fleet.repertoire} {o : Object}

/-! ## Discoveries -/

theorem mem_discovered {e : Exchange} (he : e ∈ past) (h : e.discovered? = some repositories) :
    repositories ∈ discovered past := List.mem_filterMap.2 ⟨e, he, h⟩

theorem discovered_mono (hsub : past ⊆ past') : discovered past ⊆ discovered past' := by
  intro repositories h
  obtain ⟨e, he, hanswer⟩ := List.mem_filterMap.1 h
  exact mem_discovered (hsub he) hanswer

theorem discovers_of_discovered? {e : Exchange} (h : e.discovered? = some repositories) :
    e.request.discovers := by
  obtain ⟨request, reply, before, after⟩ := e
  cases request with
  | discover => rfl
  | store | correlate | publish | measure => cases h

/-- A pass discovers one list of repositories. -/
theorem Single.discovered_eq (h : Single past) {found found' : List String}
    (hfound : found ∈ discovered past) (hfound' : found' ∈ discovered past) : found = found' := by
  obtain ⟨e, he, hanswer⟩ := List.mem_filterMap.1 hfound
  obtain ⟨e', he', hanswer'⟩ := List.mem_filterMap.1 hfound'
  cases h.eq_of_discovers he he' (discovers_of_discovered? hanswer)
    (discovers_of_discovered? hanswer')
  exact Option.some.inj (hanswer.symm.trans hanswer')

/-- The campaign at a key has had this partition policy, and what a pass has discovered goes on from
what passes have discovered that have been started before it. -/
structure Growing (key : Key) (policy : SchedulingPolicy) (w : World Fleet.repertoire) :
    Prop where
  partition : ∀ t ∈ w.tasks, ∀ e ∈ t.past, ∀ campaign, e.before.campaign? key = some campaign →
    campaign.spec.policy.strategy = policy.strategy ∧
      campaign.spec.policy.batchSize = policy.batchSize
  appends : w.tasks.Pairwise fun t t' =>
    ∀ found ∈ discovered t.past, ∀ later ∈ discovered t'.past, found <+: later

namespace Growing

theorem before_move (h : Growing key policy w') {rules : Rules Fleet.repertoire}
    (hmove : rules.Move w w') : Growing key policy w where
  partition t ht e he := by
    obtain ⟨t', ht', -, hpast⟩ := hmove.exists_past ht
    exact h.partition t' ht' e (hpast.subset he)
  appends := by
    refine hmove.pairwise_past (P := fun past past' =>
      ∀ found ∈ discovered past, ∀ later ∈ discovered past', found <+: later) ?_ h.appends
    intro a a' b b' hpast hpast' hlater found hfound later hnew
    exact hlater found (discovered_mono hpast.subset hfound) later
      (discovered_mono hpast'.subset hnew)

theorem before_steps (h : Growing key policy w') {rules : Rules Fleet.repertoire}
    (hsteps : rules.Steps w w') : Growing key policy w := by
  induction hsteps with
  | refl => exact h
  | tail _ hstep ih => exact ih (h.before_move hstep.move)

/-- The batches of a pass are those of what it has discovered. -/
theorem exists_discovered (h : Growing key policy w) (ht : t ∈ w.tasks) {campaign : Campaign}
    (hknows : Knows key campaign t.past) (hcuts : Cuts campaign batches t.past) :
    ∃ found ∈ discovered t.past, Partition.batches found policy = .ok batches := by
  obtain ⟨-, s, object, hfind, hread, hdecode⟩ := hknows
  obtain ⟨s', found, hdiscovery, hbatches⟩ := hcuts
  obtain ⟨hstrategy, hsize⟩ :=
    h.partition t ht _ hread campaign (Store.campaign?_eq_some.2 ⟨object, hfind, hdecode⟩)
  refine ⟨found, mem_discovered hdiscovery rfl, ?_⟩
  rw [← Partition.batches_congr hstrategy hsize, hbatches]

end Growing

/-- What is stored after a step, other than a campaign, has been stored and has faded, or there is a
job in progress that has requested something of the store. -/
theorem faded_or_requested (hw : (singleRulesWith excludes key).Reachable w)
    (hstep : (singleRulesWith excludes key).Step w w') {slot : Slot}
    (hkind : slot.kind ≠ .campaign) (found : w'.store.find? slot = some o) :
    (∃ old, w.store.find? slot = some old ∧ old.Fades o) ∨
      ∃ t ∈ w.tasks, t.InProgress ∧ ∃ (r : StoreRequest)
        (next : (Request.store r).Reply → Program (Fleet.repertoire.Result t.job)),
        t.rest = .ask (.store r) next ∧ Fleet.Asks t.job t.past (.store r) ∧
          w.store.Outcome r w'.store := by
  cases hstep.move.cause with
  | none hsame => exact .inl ⟨o, hsame ▸ found, .refl o⟩
  | @outside now r huser hafter =>
    replace huser : Fleet.IsUser (· = key) False r := huser
    exact .inl (Fleet.faded_of_isOpen hkind huser.isOpen (Store.serve_outcome hw.sound now _)
      (hafter ▸ found))
  | @answer t r next reply ht hrest hanswered _ hprogress =>
    cases r with
    | discover | correlate | publish | measure =>
      have hsame : w'.store = w.store := hanswered
      exact .inl ⟨o, hsame ▸ found, .refl o⟩
    | store r =>
      have hheeds := hw.steps.heeds Fleet.program_heeds .empty t ht
      rw [hrest] at hheeds
      exact .inr ⟨t, ht, hprogress, r, next, hrest, hheeds.1, hanswered.outcome hw.sound⟩

/-! ## When work units are created -/

/-- What admission passes request in view of the document. -/
def FoundsAs : Fleet.Job → List Exchange → Request → Prop
  | .pass (.admission _ key _) => Founds key
  | _ => fun _ _ => True

theorem program_founds (job : Fleet.repertoire.Job) (s : Store) :
    (Fleet.repertoire.program job).Ensures lasting (FoundsAs job) (fun _ _ _ => True) [] s := by
  cases job with
  | report => exact .of_forall fun _ _ => trivial
  | pass job =>
    cases job with
    | lifecycle => exact .of_forall fun _ _ => trivial
    | admission settings key now =>
      exact (reconcile_founds settings now).mono fun _ _ _ _ => trivial

/-- When a pass creates a work unit, the document has had its batches. -/
theorem founds_of_rest (hw : (singleRulesWith excludes key).Reachable w) (ht : t ∈ w.tasks)
    {target : Key} (hadmits : Fleet.Job.Admits target t.job) {r : Request}
    {next : r.Reply → Program (Fleet.repertoire.Result t.job)} (hrest : t.rest = .ask r next) :
    Founds target t.past r := by
  have hinv : ∀ {w}, (singleRulesWith excludes key).Steps {} w → lasting.inv w.store := by
    intro w hsteps
    have hw : (singleRulesWith excludes key).Reachable w := ⟨trivial, hsteps⟩
    exact ⟨hw.sound, fun k o found => Fleet.stays hw _ o found (.inr rfl)⟩
  have hrely : ∀ {w w'}, (singleRulesWith excludes key).Steps {} w →
      (singleRulesWith excludes key).Step w w' → lasting.rely w.store w'.store := by
    intro w w' hsteps hstep
    refine ⟨hstep.move.edits.follows, fun k hthere => ?_⟩
    obtain ⟨o, found⟩ := Option.ne_none_iff_exists'.1 hthere
    obtain ⟨o', found', -⟩ := Fleet.find?_steps ⟨trivial, hsteps⟩ (.single hstep) found (.inr rfl)
    exact found' ▸ Option.some_ne_none o'
  obtain ⟨s₀, hlater, hensures⟩ :=
    hw.steps.ensures_beside (fun job s _ => program_founds job s) hinv hrely t ht
  rw [hrest] at hensures
  have hfounds := (hensures _ hlater (hinv hw.steps)).1
  cases hjob : t.job with
  | report =>
    rw [hjob] at hadmits
    exact hadmits.elim
  | pass job =>
    rw [hjob] at hadmits hfounds
    cases job with
    | lifecycle => exact hadmits.elim
    | admission =>
      cases hadmits
      exact hfounds

/-- A work unit is for the batch at its index that a pass has come to, and the document has had the
batches of this pass. -/
def Rooted (key : Key) (w : World Fleet.repertoire) (u : WorkUnit) : Prop :=
  ∃ t ∈ w.tasks, Fleet.Job.Admits key t.job ∧ Founded key t.past ∧
    ∃ campaign batches, Knows key campaign t.past ∧ Cuts campaign batches t.past ∧
      batches[u.spec.batchIndex]? = some u.spec.repositories

theorem Rooted.move {u : WorkUnit} (h : Rooted key w u) {rules : Rules Fleet.repertoire}
    (hmove : rules.Move w w') {u' : WorkUnit} (hspec : u'.spec = u.spec) : Rooted key w' u' := by
  obtain ⟨t, ht, hadmits, hfounded, campaign, batches, hknows, hcuts, hbatch⟩ := h
  obtain ⟨t', ht', hjob, hpast⟩ := hmove.exists_past ht
  exact ⟨t', ht', hjob ▸ hadmits, hfounded.mono hpast, campaign, batches,
    hknows.mono hpast.subset, hcuts.mono hpast.subset, hspec ▸ hbatch⟩

theorem rooted_step (hw : (singleRulesWith excludes key).Reachable w)
    (hstep : (singleRulesWith excludes key).Step w w')
    (h : ∀ k o, w.store.find? (unitSlot k) = some o →
      ∃ u : WorkUnit, Resource.decode o = .ok u ∧ Rooted key w u)
    (found : w'.store.find? (unitSlot k) = some o) :
    ∃ u : WorkUnit, Resource.decode o = .ok u ∧ Rooted key w' u := by
  have hfaded : ∀ {old : Object}, w.store.find? (unitSlot k) = some old → old.Fades o →
      ∃ u : WorkUnit, Resource.decode o = .ok u ∧ Rooted key w' u := by
    intro old hold hfades
    obtain ⟨u, hdecode, hrooted⟩ := h k old hold
    obtain ⟨u', hdecode', hspec⟩ := Fleet.exists_decode_of_body hdecode hfades.body
    exact ⟨u', hdecode', hrooted.move hstep.move hspec⟩
  rcases faded_or_requested hw hstep (nofun : Kind.workUnit ≠ .campaign) found with
    ⟨old, hold, hfades⟩ | ⟨t, ht, -, r, next, hrest, hasks, hout⟩
  · exact hfaded hold hfades
  · cases Fleet.unit_origin (hw.steps.genuine .empty ht) hasks hout found with
    | faded hold hfades => exact hfaded hold hfades
    | @changed old current changed hold hdecode hretains hspec =>
      obtain ⟨u, hdecode', hrooted⟩ := h k old hold
      cases hdecode.symm.trans hdecode'
      exact ⟨_, Resource.decode_stored _ changed, hrooted.move hstep.move hspec⟩
    | @created target object now hnone heq hadmits hasked =>
      subst heq
      have hfounds := founds_of_rest hw ht hadmits hrest
      cases hasked with
      | @createUnit campaign batches index batch time hknows hcuts _ hbatch =>
        cases key_eq_of_knows hw ht hknows
        have hrooted : Rooted key w (workUnit campaign index batch time) :=
          ⟨t, ht, hadmits, hfounds, campaign, batches, hknows, hcuts, hbatch⟩
        exact ⟨_, Resource.decode_stored _ (workUnit campaign index batch time),
          hrooted.move hstep.move rfl⟩

theorem rooted (hw : (singleRulesWith excludes key).Reachable w) :
    ∀ k o, w.store.find? (unitSlot k) = some o →
      ∃ u : WorkUnit, Resource.decode o = .ok u ∧ Rooted key w u := by
  apply hw.induct (P := fun w => ∀ k o, w.store.find? (unitSlot k) = some o →
    ∃ u : WorkUnit, Resource.decode o = .ok u ∧ Rooted key w u)
  · intro _ k o found
    cases found
  · intro w w' hw ih hstep k o found
    exact rooted_step hw hstep ih found

/-! ## What the document has -/

theorem Documents.of_fades {s' : Store} {old : Object} (h : Documents key batches s)
    (hold : s.find? (batchesSlot key) = some old) (found : s'.find? (batchesSlot key) = some o)
    (hfades : old.Fades o) : Documents key batches s' := by
  obtain ⟨old', d, hold', hdecode, hbatches⟩ := h
  cases hold.symm.trans hold'
  refine ⟨o, Resource.setMetadata o.metadata d, found, ?_, hbatches⟩
  rw [Resource.decode_eq_map hfades.body, hdecode]
  rfl

/-- The document has the batches of a list that some pass has discovered, and that goes on from this
one. -/
def Covers (key : Key) (policy : SchedulingPolicy) (repositories : List String)
    (w : World Fleet.repertoire) : Prop :=
  ∃ t ∈ w.tasks, Fleet.Job.Admits key t.job ∧ ∃ later ∈ discovered t.past, repositories <+: later ∧
    ∃ batches, Partition.batches later policy = .ok batches ∧ Documents key batches w.store

/-- Admission passes over the one campaign follow each other. -/
abbrev orderlyRules (key : Key) : Rules Fleet.repertoire :=
  singleRulesWith seriesRules.excludes key

section
variable (hw : (orderlyRules key).Reachable w) (hstep : (orderlyRules key).Step w w')
  (hgrowing : Growing key policy w)
include hw hstep hgrowing

theorem Covers.step (h : Covers key policy repositories w) : Covers key policy repositories w' := by
  obtain ⟨t, ht, hadmits, later, hlater, happends, batches, hbatches, hdocuments⟩ := h
  obtain ⟨o, d, hold, -⟩ := id hdocuments
  obtain ⟨o', found, -⟩ := Fleet.find?_steps hw (.single hstep) hold (.inr rfl)
  have hkept : ∀ {old : Object}, w.store.find? (batchesSlot key) = some old → old.Fades o' →
      Covers key policy repositories w' := by
    intro old hfind hfades
    obtain ⟨t', ht', hjob, hpast⟩ := hstep.move.exists_past ht
    exact ⟨t', ht', hjob ▸ hadmits, later, discovered_mono hpast.subset hlater, happends, batches,
      hbatches, hdocuments.of_fades hfind found hfades⟩
  rcases faded_or_requested hw hstep (nofun : Kind.configDocument ≠ .campaign) found with
    ⟨old, hfind, hfades⟩ | ⟨t₁, ht₁, hprogress, r, -, -, hasks, hout⟩
  · exact hkept hfind hfades
  · cases Fleet.document_origin rfl hasks hout found with
    | faded hfind hfades => exact hkept hfind hfades
    | @written _ campaign batches₁ d₁ _ hadmits₁ hknows hcuts hdecode hd =>
      cases key_eq_of_knows hw ht₁ hknows
      obtain ⟨later₁, hlater₁, hbatches₁⟩ := hgrowing.exists_discovered ht₁ hknows hcuts
      -- the pass that writes has discovered no less than the one before it
      have hfollows : later <+: later₁ := by
        rcases hw.steps.queued.before hgrowing.appends ht₁ hprogress ht
          ⟨key, hadmits₁, hadmits⟩ with rfl | hfollows
        · rw [(single_past .empty hw.steps ht hadmits).discovered_eq hlater hlater₁]
        · exact hfollows later hlater later₁ hlater₁
      obtain ⟨t', ht', hjob, hpast⟩ := hstep.move.exists_past ht₁
      exact ⟨t', ht', hjob ▸ hadmits₁, later₁, discovered_mono hpast.subset hlater₁,
        happends.trans hfollows, batches₁, hbatches₁, o', d₁, found, hdecode, hd⟩

end

theorem Covers.steps (h : Covers key policy repositories w) (hw : (orderlyRules key).Reachable w)
    (hsteps : (orderlyRules key).Steps w w') (hgrowing : Growing key policy w') :
    Covers key policy repositories w' := by
  induction hsteps with
  | refl => exact h
  | tail hsteps hstep ih =>
    have hbefore := hgrowing.before_move hstep.move
    exact (ih hbefore).step (hw.of_steps hsteps) hstep hbefore

/-- A document that has had the batches of a pass has those of what the pass has discovered, or of
more. -/
theorem covers_of_founded (hw : (orderlyRules key).Reachable w) (hgrowing : Growing key policy w)
    (ht : t ∈ w.tasks) (hadmits : Fleet.Job.Admits key t.job) (hfounded : Founded key t.past)
    {found : List String} (hfound : found ∈ discovered t.past) :
    Covers key policy found w := by
  obtain ⟨campaign, batches, front, e, hknows, hcuts, hdocuments, back, hpast⟩ := hfounded
  rw [List.append_assoc] at hpast
  obtain ⟨w₀, w₁, htook⟩ := hw.steps.exists_exchange ht hpast.symm
  have hw₁ : (orderlyRules key).Reachable w₁ := ⟨trivial, htook.before.tail htook.step⟩
  have hgrowing₀ := hgrowing.before_steps (.head htook.step htook.after)
  obtain ⟨t₀, ht₀, hjob, rfl, -⟩ := htook.asked
  obtain ⟨found₀, hfound₀, hbatches⟩ := hgrowing₀.exists_discovered ht₀ hknows hcuts
  have hsame : found = found₀ := by
    refine (single_past .empty hw.steps ht hadmits).discovered_eq hfound
      (discovered_mono ?_ hfound₀)
    exact hpast ▸ List.subset_append_left ..
  obtain ⟨t₁, ht₁, hjob₁, hpast₁⟩ := htook.step.move.exists_past ht₀
  rw [hsame]
  refine Covers.steps ⟨t₁, ht₁, ?_, found₀, discovered_mono hpast₁.subset hfound₀,
    List.prefix_rfl, batches, hbatches, htook.store_after ▸ hdocuments⟩ hw₁ htook.after hgrowing
  rw [hjob₁, hjob]
  exact hadmits

/-- **A full batch stays where it is.** Where batches are cut by size, every batch goes on at its
index when repositories are appended, and a full one stays what it is. With one campaign that has
such a policy, passes that follow each other and discoveries that only ever append, the document has
at the index of every work unit that has been stored what its batch has become, so the very
repositories of the work unit if it has been admitted with a full batch. -/
theorem full_batches_stay {policy : SchedulingPolicy}
    (hstrategy : policy.strategy = .fixedBatchSize) (hsize : 0 < policy.batchSize.toInt) :
    (∀ repositories more : List String, ∃ cut cut' : List Batch,
      Partition.batches repositories policy = .ok cut ∧
      Partition.batches (repositories ++ more) policy = .ok cut' ∧
      ∀ (i : Nat) (batch : Batch), cut[i]? = some batch →
        ∃ batch', cut'[i]? = some batch' ∧ batch <+: batch' ∧
          (batch.length = policy.batchSize.toInt.toNat → batch' = batch)) ∧
    ∀ {key : Key} {w₀ w : World Fleet.repertoire}, (orderlyRules key).Reachable w₀ →
      (orderlyRules key).Steps w₀ w → Growing key policy w →
      ∀ {k : Key} {o : Object} {u : WorkUnit}, w₀.store.find? (unitSlot k) = some o →
        Resource.decode o = .ok u →
        ∃ (doc : Object) (d : ConfigDocument) (batch : Batch),
          w.store.find? (batchesSlot key) = some doc ∧ Resource.decode doc = .ok d ∧
          d.batches[u.spec.batchIndex]? = some (Dispatch.document batch) ∧
          u.spec.repositories <+: batch ∧
          (u.spec.repositories.length = policy.batchSize.toInt.toNat →
            batch = u.spec.repositories) := by
  constructor
  · intro repositories more
    have hcut := Partition.batches_of_fixedBatchSize hstrategy hsize repositories
    have hcut' := Partition.batches_of_fixedBatchSize hstrategy hsize (repositories ++ more)
    exact ⟨_, _, hcut, hcut', fun i batch hbatch => Partition.exists_batch_of_append hstrategy hsize
      (List.prefix_append ..) hcut hcut' hbatch⟩
  · intro key w₀ w hw₀ hsteps hgrowing k o u found hdecode
    obtain ⟨u', hdecode', t, ht, hadmits, hfounded, campaign, cut, hknows, hcuts, hbatch⟩ :=
      rooted hw₀ k o found
    cases hdecode.symm.trans hdecode'
    have hgrowing₀ := hgrowing.before_steps hsteps
    obtain ⟨repositories, hdiscovered, hcut⟩ := hgrowing₀.exists_discovered ht hknows hcuts
    have hcovers₀ := covers_of_founded hw₀ hgrowing₀ ht hadmits hfounded hdiscovered
    obtain ⟨-, -, -, later, -, happends, cut', hcut', doc, d, hdoc, hd, hbatches⟩ :=
      hcovers₀.steps hw₀ hsteps hgrowing
    obtain ⟨batch, hbatch', hgoes, hfull⟩ :=
      Partition.exists_batch_of_append hstrategy hsize happends hcut hcut' hbatch
    refine ⟨doc, d, batch, hdoc, hd, ?_, hgoes, hfull⟩
    rw [hbatches, List.getElem?_map, hbatch', Option.map_some]

instance (key : Key) : DecidableRel (orderlyRules key).excludes :=
  inferInstanceAs (DecidableRel seriesRules.excludes)

instance (key : Key) : DecidablePred (orderlyRules key).outside :=
  inferInstanceAs (DecidablePred (singleRules key).outside)

instance (key : Key) : DecidablePred (orderlyRules key).during := fun _ => .isTrue trivial

/-- A campaign with two repositories in each batch, and two work units at a time. -/
def samplePairs : Campaign where
  metadata := { key := { space := "maint", name := "pairs" } }
  spec := { policy := { strategy := .fixedBatchSize, batchSize := 2, parallelism := 2 } }

/-- A pass over the campaign from its start to its end. -/
def samplePairsPass (index : Nat) (repositories : List String) : List (Turn Fleet.repertoire) :=
  .start (.pass (.admission {} samplePairs.key .epoch)) ::
    List.replicate 14 (.answer index .epoch {} repositories)

/-- The first batch is full, and the second one is not. -/
def sampleThree : List (Turn Fleet.repertoire) :=
  .outside .epoch (.create .campaign (Resource.encode samplePairs)) ::
    samplePairsPass 0 ["first", "second", "third"]

/-- Whether all exchanges are with the campaign at a key as it is, and discoveries append. -/
def isGrowing (key : Key) (policy : SchedulingPolicy) (w : World Fleet.repertoire) : Bool :=
  (w.tasks.all fun t => t.past.all fun e => (e.before.campaign? key).all fun campaign =>
    decide (campaign.spec.policy.strategy = policy.strategy ∧
      campaign.spec.policy.batchSize = policy.batchSize)) &&
  decide (w.tasks.Pairwise fun t t' =>
    ∀ found ∈ discovered t.past, ∀ later ∈ discovered t'.past, found <+: later)

theorem growing_of_isGrowing (h : isGrowing key policy w) : Growing key policy w := by
  simp only [isGrowing, Bool.and_eq_true, List.all_eq_true, decide_eq_true_eq] at h
  refine ⟨fun t ht e he campaign hcampaign => ?_, h.2⟩
  have hpartition := h.1 t ht e he
  rw [hcampaign] at hpartition
  simpa using hpartition

/-- The second batch gets a fourth repository and a third one is added, but the first batch stays
what it is. -/
theorem full_batches_stay_sample :
    samplePairs.spec.policy.strategy = .fixedBatchSize ∧
    0 < samplePairs.spec.policy.batchSize.toInt ∧
    ∃ (w₀ w : World Fleet.repertoire) (o doc : Object) (u : WorkUnit) (d : ConfigDocument),
      (orderlyRules samplePairs.key).Reachable w₀ ∧ (orderlyRules samplePairs.key).Steps w₀ w ∧
      Growing samplePairs.key samplePairs.spec.policy w ∧
      w₀.store.find? (indexSlot samplePairs.key 0) = some o ∧ Resource.decode o = .ok u ∧
      u.spec.batchIndex = 0 ∧ u.spec.repositories = ["first", "second"] ∧
      w.store.find? (batchesSlot samplePairs.key) = some doc ∧ Resource.decode doc = .ok d ∧
      d.batches.length = 3 ∧ d.batches[0]? = some (Dispatch.document ["first", "second"]) := by
  have hplay : ((orderlyRules samplePairs.key).play {} sampleThree).any fun w₀ =>
      ((w₀.store.find? (indexSlot samplePairs.key 0)).any fun o =>
        (Resource.decode o).toOption.any fun u : WorkUnit =>
          decide (u.spec.batchIndex = 0 ∧ u.spec.repositories = ["first", "second"])) &&
      ((orderlyRules samplePairs.key).play w₀
        (samplePairsPass 1 ["first", "second", "third", "fourth", "fifth"])).any fun w =>
          isGrowing samplePairs.key samplePairs.spec.policy w &&
          (w.store.find? (batchesSlot samplePairs.key)).any fun doc =>
            (Resource.decode doc).toOption.any fun d : ConfigDocument => d.batches.length == 3 := by
    decide +kernel
  obtain ⟨w₀, hsteps₀, hcheck⟩ := Rules.exists_of_play hplay
  rw [Bool.and_eq_true] at hcheck
  obtain ⟨hunit, hlater⟩ := hcheck
  obtain ⟨o, found, hunit⟩ := Option.any_eq_true _ _ |>.1 hunit
  obtain ⟨u, hdecode, hunit⟩ := Option.any_eq_true _ _ |>.1 hunit
  obtain ⟨hindex, hrepositories⟩ := of_decide_eq_true hunit
  obtain ⟨w, hsteps, hcheck⟩ := Rules.exists_of_play hlater
  rw [Bool.and_eq_true] at hcheck
  obtain ⟨hgrowing, hdocument⟩ := hcheck
  obtain ⟨doc, hdoc, hdocument⟩ := Option.any_eq_true _ _ |>.1 hdocument
  obtain ⟨d, hd, hlength⟩ := Option.any_eq_true _ _ |>.1 hdocument
  have hstrategy : samplePairs.spec.policy.strategy = .fixedBatchSize := rfl
  have hsize : 0 < samplePairs.spec.policy.batchSize.toInt := by decide
  have hw₀ : (orderlyRules samplePairs.key).Reachable w₀ := ⟨trivial, hsteps₀⟩
  replace hgrowing := growing_of_isGrowing hgrowing
  replace hdecode := Resource.eq_ok_of_toOption_decode hdecode
  replace hd := Resource.eq_ok_of_toOption_decode hd
  obtain ⟨doc', d', batch, hdoc', hd', hentry, -, hfull⟩ :=
    (full_batches_stay hstrategy hsize).2 hw₀ hsteps hgrowing found hdecode
  cases hdoc.symm.trans hdoc'
  cases hd.symm.trans hd'
  rw [hindex, hfull (by rw [hrepositories]; decide), hrepositories] at hentry
  exact ⟨hstrategy, hsize, w₀, w, o, doc, u, d, hw₀, hsteps, hgrowing, found, hdecode, hindex,
    hrepositories, hdoc, hd, of_decide_eq_true hlength, hentry⟩

end Admission
end CampaignControl
