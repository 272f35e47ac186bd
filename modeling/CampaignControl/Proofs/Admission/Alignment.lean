import CampaignControl.Proofs.Fleet

/-!
# Work units and the document of their campaign

A worker takes its batch from the configuration document, at the index of its work unit. A work unit
keeps the repositories that it has been admitted with, and the document is rewritten by every pass
from what the repositories are by then. Each of the two is right with respect to some partition
that some pass has cut, but they need not be the same (`Admission.Derived`,
`Admission.batch_of_worker`). When a repository is found in front of the others, the workers that
have been admitted before are given the batches of their neighbours (`Admission.alignment_fails`).
-/

namespace CampaignControl

namespace Dispatch

/-- The worker with an index is given these repositories by a document. -/
def Gives (d : ConfigDocument) (index : Nat) (repositories : List String) : Prop :=
  ∃ out fields, merge (.object d.baseConfig) d.batches index = .ok out ∧
    out.merged = .object fields ∧
    Keyed.find? repositoriesField fields = some (Json.ofStrings repositories)

/-- A worker is given the batch at its index. -/
theorem gives_iff {d : ConfigDocument} {batches : List Batch}
    (h : d.batches = batches.map document) (index : Nat) (repositories : List String) :
    Gives d index repositories ↔ batches[index]? = some repositories := by
  unfold Gives merge
  rw [h, List.getElem?_map]
  cases hbatch : batches[index]? with
  | none =>
    constructor
    · rintro ⟨out, fields, hmerge, -⟩
      cases hmerge
    · nofun
  | some batch =>
    have hfind : Keyed.find? repositoriesField (Json.overlay d.baseConfig
        [(repositoriesField, Json.ofStrings batch)]) = some (Json.ofStrings batch) :=
      (Keyed.find?_insert ..).trans (if_pos rfl)
    constructor
    · rintro ⟨out, fields, hmerge, hmerged, hfields⟩
      cases hmerge
      cases hmerged
      have heq := congrArg Json.toStrings? (Option.some.inj (hfind.symm.trans hfields))
      rwa [Json.toStrings?_ofStrings, Json.toStrings?_ofStrings] at heq
    · rintro heq
      cases heq
      exact ⟨_, _, rfl, rfl, hfind⟩

end Dispatch

namespace Admission

open Fleet (Requested)
open Lifecycle (unitSlot)

variable {excludes : Fleet.Job → Fleet.Job → Prop} {key : Key} {w w' : World Fleet.repertoire}
  {t : Task Fleet.repertoire} {o : Object}

/-! ## Partitions -/

/-- A pass over the campaign at a key has cut these batches. -/
def Partitioned (w : World Fleet.repertoire) (key : Key) (batches : List Batch) : Prop :=
  ∃ t ∈ w.tasks, ∃ campaign, Knows key campaign t.past ∧ Cuts campaign batches t.past

theorem Partitioned.move {batches : List Batch} (h : Partitioned w key batches)
    {rules : Rules Fleet.repertoire} (hmove : rules.Move w w') : Partitioned w' key batches := by
  obtain ⟨t, ht, campaign, hknows, hcuts⟩ := h
  obtain ⟨t', ht', -, hpast⟩ := hmove.exists_past ht
  exact ⟨t', ht', campaign, hknows.mono hpast.subset, hcuts.mono hpast.subset⟩

/-! ## One campaign -/

/-- Only the campaign at a key is there, and users change it, but do not delete anything. -/
abbrev singleRules (key : Key) : Rules Fleet.repertoire := Fleet.rules (· = key) False

/-- The same with any other jobs that wait for each other, or none. -/
abbrev singleRulesWith (excludes : Fleet.Job → Fleet.Job → Prop) (key : Key) :
    Rules Fleet.repertoire :=
  Fleet.rulesWith excludes (· = key) False

/-- What has been met in the slot of a campaign is this one. -/
theorem key_eq_of_met (hw : (singleRulesWith excludes key).Reachable w) {key' : Key} {uid : Uid}
    (hmet : w.Met (campaignSlot key') uid) : key' = key := by
  obtain ⟨t, ht, e, he, o, hfind, -⟩ := hmet
  obtain ⟨_, w₀, w₁, -, hw₀, -, htook⟩ := hw.exists_exchange ht he
  exact (Fleet.descends hw₀ _ o (htook.store_before ▸ hfind)).of_campaign

/-- The campaign that a pass knows is this one. -/
theorem key_eq_of_knows (hw : (singleRulesWith excludes key).Reachable w) (ht : t ∈ w.tasks)
    {key' : Key} {campaign : Campaign} (hknows : Knows key' campaign t.past) : key' = key := by
  obtain ⟨owner, -, -, hmet⟩ := Fleet.exists_asOwner ht (hw.steps.genuine .empty ht) hknows ""
  exact key_eq_of_met hw hmet

/-- There is still something in a slot of a document where there was something before. -/
theorem find?_of_occupied (hw : (singleRules key).Reachable w) (ht : t ∈ w.tasks)
    (h : Occupied (batchesSlot key) t.past) : w.store.find? (batchesSlot key) ≠ none := by
  obtain ⟨e, he, hthere⟩ := h
  obtain ⟨o, found⟩ := Option.ne_none_iff_exists'.1 hthere
  obtain ⟨_, w₀, w₁, -, -, hw₁, htook⟩ := hw.exists_exchange ht he
  obtain ⟨o', found', -⟩ :=
    Fleet.find?_steps hw₁ htook.after (htook.store_after ▸ found) (.inr rfl)
  exact found' ▸ Option.some_ne_none o'

/-- An object is a document with the batches of a partition. -/
def HoldsBatches (key : Key) (w : World Fleet.repertoire) (o : Object) : Prop :=
  ∃ (d : ConfigDocument) (batches : List Batch), Resource.decode o = .ok d ∧
    Partitioned w key batches ∧ d.batches = batches.map Dispatch.document

/-- An object is a work unit for a batch of a partition. -/
def HasBatch (key : Key) (w : World Fleet.repertoire) (o : Object) : Prop :=
  ∃ (u : WorkUnit) (batches : List Batch), Resource.decode o = .ok u ∧
    Partitioned w key batches ∧ batches[u.spec.batchIndex]? = some u.spec.repositories

theorem HoldsBatches.move (h : HoldsBatches key w o) {rules : Rules Fleet.repertoire}
    (hmove : rules.Move w w') {o' : Object} (hbody : o'.body = o.body) :
    HoldsBatches key w' o' := by
  obtain ⟨d, batches, hdecode, hpartition, hbatches⟩ := h
  refine ⟨Resource.setMetadata o'.metadata d, batches, ?_, hpartition.move hmove, hbatches⟩
  rw [Resource.decode_eq_map hbody, hdecode]
  rfl

/-- Every work unit is for a batch of some partition. -/
theorem hasBatch (hw : (singleRulesWith excludes key).Reachable w) {k : Key}
    (found : w.store.find? (unitSlot k) = some o) : HasBatch key w o := by
  obtain ⟨u, hdecode, t, ht, key', campaign, batches, index, batch, now, hknows, hcuts, hbatch,
    hspec⟩ := Fleet.specified hw k o found
  cases key_eq_of_knows hw ht hknows
  refine ⟨u, batches, hdecode, ⟨t, ht, campaign, hknows, hcuts⟩, ?_⟩
  rw [hspec]
  exact hbatch

/-- What documents and work units hold is of some partition, and no work unit is without the
document. -/
structure Derived (key : Key) (w : World Fleet.repertoire) : Prop where
  document : ∀ k o, w.store.find? { kind := .configDocument, key := k } = some o →
    HoldsBatches key w o
  unit : ∀ k o, w.store.find? (unitSlot k) = some o → HasBatch key w o
  there : ∀ k o, w.store.find? (unitSlot k) = some o → w.store.find? (batchesSlot key) ≠ none

section
variable (hw : (singleRules key).Reachable w) {object old : Object}
include hw

theorem document_created (hr : Requested (· = key) False w (.create .configDocument object))
    (now : Instant) : HoldsBatches key w (w.store.newborn now object) := by
  obtain ⟨t, ht, key', hasks⟩ := hr.exists_admission ⟨object, .inl rfl⟩
  cases hasks with
  | @createDocument campaign batches hknows hcuts =>
    cases key_eq_of_knows hw ht hknows
    exact ⟨_, batches, Resource.decode_stored _ (document campaign batches),
      ⟨t, ht, campaign, hknows, hcuts⟩, rfl⟩

theorem document_revised (hr : Requested (· = key) False w (.update .configDocument object)) :
    HoldsBatches key w (w.store.revised old object) := by
  obtain ⟨t, ht, key', hasks⟩ := hr.exists_admission ⟨object, .inr (.inr rfl)⟩
  cases hasks with
  | @refresh campaign batches s o current changed hknows hcuts hread hdecode hchange =>
    cases key_eq_of_knows hw ht hknows
    exact ⟨_, batches, Resource.decode_stored _ changed, ⟨t, ht, campaign, hknows, hcuts⟩,
      batches_refresh hchange⟩

/-- The document is there when a work unit is created. -/
theorem there_of_create (hr : Requested (· = key) False w (.create .workUnit object)) :
    w.store.find? (batchesSlot key) ≠ none := by
  obtain ⟨t, ht, key', hasks⟩ := hr.exists_admission ⟨object, .inr (.inl rfl)⟩
  cases hasks with
  | createUnit _ hknows _ hthere =>
    cases key_eq_of_knows hw ht hknows
    exact find?_of_occupied hw ht hthere

end

theorem Derived.step (h : Derived key w) (hw : (singleRules key).Reachable w)
    (hstep : (singleRules key).Step w w') : Derived key w' := by
  have hthere : w.store.find? (batchesSlot key) ≠ none →
      w'.store.find? (batchesSlot key) ≠ none := by
    intro hsome
    obtain ⟨o, found⟩ := Option.ne_none_iff_exists'.1 hsome
    obtain ⟨o', found', -⟩ := Fleet.find?_steps hw (.single hstep) found (.inr rfl)
    exact found' ▸ Option.some_ne_none o'
  have hunit : ∀ k o, w'.store.find? (unitSlot k) = some o → HasBatch key w' o :=
    fun k o found => hasBatch (hw.of_steps (.single hstep)) found
  rcases Fleet.outcome hw hstep with hsame | ⟨r, hr, hout⟩
  · refine ⟨fun k o found => ?_, hunit, fun k o found => ?_⟩ <;> rw [hsame] at found
    · exact (h.document k o found).move hstep.move rfl
    · exact hthere (h.there k o found)
  · have hsource {slot : Slot} {o : Object} (found : w'.store.find? slot = some o) :=
      hout.source (Requested.ne_orphan hr) found
    refine ⟨fun k o found => ?_, hunit, fun k o found => ?_⟩
    · cases hsource found with
      | same hold => exact (h.document k o hold).move hstep.move rfl
      | marked time version hold => exact (h.document k _ hold).move hstep.move rfl
      | created now heq =>
        subst heq
        exact (document_created hw hr now).move hstep.move rfl
      | revised heq =>
        subst heq
        exact (document_revised hw hr).move hstep.move rfl
    · cases hsource found with
      | same hold => exact hthere (h.there k o hold)
      | marked time version hold => exact hthere (h.there k _ hold)
      | created now heq =>
        subst heq
        exact hthere (there_of_create hw hr)
      | revised _ _ _ hold => exact hthere (h.there k _ hold)

theorem derived (hw : (singleRules key).Reachable w) : Derived key w := by
  apply hw.induct (P := Derived key)
  · intro _
    constructor <;> intro k o found <;> cases found
  · intro w w' hw ih hstep
    exact ih.step hw hstep

/-- **What a worker is given.** The repositories of a work unit are the batch at its index in some
partition that a pass over the campaign has cut, and the document of the campaign holds the batches
of some partition. The worker is given the repositories of its work unit just if they are the batch
at this index in the partition of the document, so certainly if the batch at this index is the same
in all partitions that have been cut. -/
theorem batch_of_worker (hw : (singleRules key).Reachable w) {k : Key}
    (found : w.store.find? (unitSlot k) = some o) {u : WorkUnit}
    (hdecode : Resource.decode o = .ok u) :
    let worker := u.toExecution.spec
    ∃ (doc : Object) (d : ConfigDocument) (earlier batches : List Batch),
      w.store.find? { kind := .configDocument
                      key := { space := k.space, name := worker.configDocument } } = some doc ∧
      Resource.decode doc = .ok d ∧ Partitioned w key earlier ∧ Partitioned w key batches ∧
      earlier[worker.workerIndex]? = some u.spec.repositories ∧
      d.batches = batches.map Dispatch.document ∧
      (Dispatch.Gives d worker.workerIndex u.spec.repositories ↔
        batches[worker.workerIndex]? = some u.spec.repositories) ∧
      ((∀ other, Partitioned w key other →
          other[worker.workerIndex]? = earlier[worker.workerIndex]?) →
        Dispatch.Gives d worker.workerIndex u.spec.repositories) := by
  intro worker
  have hderived := derived hw
  obtain ⟨u', earlier, hdecode', hearlier, hbatch⟩ := hderived.unit k o found
  cases hdecode.symm.trans hdecode'
  obtain ⟨doc, hdoc⟩ := Option.ne_none_iff_exists'.1 (hderived.there k o found)
  obtain ⟨d, batches, hd, hpartition, hbatches⟩ := hderived.document _ doc hdoc
  have hslot : ({ kind := .configDocument
                  key := { space := k.space, name := worker.configDocument } } : Slot) =
      batchesSlot key := by
    obtain ⟨owner, u', -, hmet, hu', -, hname, -⟩ := (Fleet.descends hw _ o found).of_unit
    cases hdecode.symm.trans hu'
    rw [← key_eq_of_met hw hmet]
    exact congrArg (fun name => ({ kind := .configDocument, key := ⟨k.space, name⟩ } : Slot)) hname
  refine ⟨doc, d, earlier, batches, hslot ▸ hdoc, hd, hearlier, hpartition, hbatch, hbatches,
    Dispatch.gives_iff hbatches _ _, ?_⟩
  intro hagree
  exact (Dispatch.gives_iff hbatches _ _).2 ((hagree batches hpartition).trans hbatch)

/-! ## A repository in front of the others -/

/-- A campaign with one repository for each worker. -/
def sampleNightly : Campaign where
  metadata := { key := { space := "maint", name := "nightly" } }
  spec := { policy := { strategy := .fixedBatchSize, batchSize := 1, parallelism := 2 } }

/-- Two work units are admitted, and then a third repository is found. -/
def sampleArrival : List (Turn Fleet.repertoire) :=
  .outside .epoch (.create .campaign (Resource.encode sampleNightly)) ::
    .start (.pass (.admission {} sampleNightly.key .epoch)) ::
    (List.replicate 14 (.answer 0 .epoch {} ["first", "second"]) ++
      .start (.pass (.admission {} sampleNightly.key .epoch)) ::
      List.replicate 10 (.answer 1 .epoch {} ["new", "first", "second"]))

/-- The first work unit is for the first repository, but the document has another one at its
index. -/
theorem exists_displaced : ∃ w : World Fleet.repertoire,
    (singleRules sampleNightly.key).Reachable w ∧ ∃ (o doc campaign : Object) (u : WorkUnit)
      (d : ConfigDocument),
      w.store.find? (unitSlot { space := "maint", name := "nightly-batch-0" }) = some o ∧
      w.store.find? (batchesSlot sampleNightly.key) = some doc ∧
      w.store.find? (campaignSlot sampleNightly.key) = some campaign ∧
      Resource.decode o = .ok u ∧ Resource.decode doc = .ok d ∧ u.isLive ∧
      o.metadata.owner.map (·.uid) = campaign.metadata.uid ∧
      u.spec.configDocument = "nightly-batches" ∧ u.spec.batchIndex = 0 ∧
      u.spec.repositories = ["first"] ∧ d.batches[0]? = some (Dispatch.document ["new"]) := by
  have hplay : ((singleRules sampleNightly.key).play {} sampleArrival).any fun w =>
      (w.store.find? (unitSlot { space := "maint", name := "nightly-batch-0" })).any fun o =>
      (w.store.find? (batchesSlot sampleNightly.key)).any fun doc =>
      (w.store.find? (campaignSlot sampleNightly.key)).any fun campaign =>
      (Resource.decode o).toOption.any fun u : WorkUnit =>
      (Resource.decode doc).toOption.any fun d : ConfigDocument =>
        decide (u.isLive ∧ o.metadata.owner.map (·.uid) = campaign.metadata.uid ∧
          u.spec.configDocument = "nightly-batches" ∧ u.spec.batchIndex = 0 ∧
          u.spec.repositories = ["first"] ∧
          d.batches[0]? = some (Dispatch.document ["new"])) := by decide +kernel
  obtain ⟨w, hsteps, hcheck⟩ := Rules.exists_of_play hplay
  obtain ⟨o, found, hcheck⟩ := Option.any_eq_true _ _ |>.1 hcheck
  obtain ⟨doc, hdoc, hcheck⟩ := Option.any_eq_true _ _ |>.1 hcheck
  obtain ⟨campaign, hcampaign, hcheck⟩ := Option.any_eq_true _ _ |>.1 hcheck
  obtain ⟨u, hdecode, hcheck⟩ := Option.any_eq_true _ _ |>.1 hcheck
  obtain ⟨d, hd, hcheck⟩ := Option.any_eq_true _ _ |>.1 hcheck
  exact ⟨w, ⟨trivial, hsteps⟩, o, doc, campaign, u, d, found, hdoc, hcampaign,
    Resource.eq_ok_of_toOption_decode hdecode, Resource.eq_ok_of_toOption_decode hd,
    of_decide_eq_true hcheck⟩

/-- The document does not hold the repositories of every live work unit of the campaign at the
index of this work unit. -/
theorem alignment_fails :
    ¬ ∀ (key : Key) (w : World Fleet.repertoire) (k : Key) (o campaign : Object) (u : WorkUnit),
      (singleRules key).Reachable w → w.store.find? (campaignSlot key) = some campaign →
      w.store.find? (unitSlot k) = some o →
      o.metadata.owner.map (·.uid) = campaign.metadata.uid → Resource.decode o = .ok u →
      u.isLive → ∃ (doc : Object) (d : ConfigDocument),
        w.store.find? (batchesSlot key) = some doc ∧ Resource.decode doc = .ok d ∧
        d.batches[u.spec.batchIndex]? = some (Dispatch.document u.spec.repositories) := by
  intro haligned
  obtain ⟨w, hw, o, doc, campaign, u, d, found, hdoc, hcampaign, hdecode, hd, hlive, howner, -,
    hindex, hrepositories, hbatch⟩ := exists_displaced
  obtain ⟨doc', d', hdoc', hd', hbatch'⟩ :=
    haligned _ w _ o campaign u hw hcampaign found howner hdecode hlive
  cases hdoc.symm.trans hdoc'
  cases hd.symm.trans hd'
  rw [hindex, hrepositories, hbatch] at hbatch'
  revert hbatch'
  decide

/-- The batch at the index of the first work unit is not the same in two partitions. -/
theorem batch_of_worker_sample : ∃ w : World Fleet.repertoire,
    (singleRules sampleNightly.key).Reachable w ∧ ∃ (o : Object) (u : WorkUnit) (doc : Object)
      (d : ConfigDocument) (earlier batches : List Batch),
      w.store.find? (unitSlot { space := "maint", name := "nightly-batch-0" }) = some o ∧
      Resource.decode o = .ok u ∧ w.store.find? (batchesSlot sampleNightly.key) = some doc ∧
      Resource.decode doc = .ok d ∧ Partitioned w sampleNightly.key earlier ∧
      Partitioned w sampleNightly.key batches ∧ earlier[0]? = some ["first"] ∧
      batches[0]? ≠ some ["first"] ∧ ¬ Dispatch.Gives d 0 ["first"] := by
  obtain ⟨w, hw, o, doc, -, u, d, found, hdoc, -, hdecode, hd, -, -, hname, hindex, hrepositories,
    hbatch⟩ := exists_displaced
  obtain ⟨doc', d', earlier, batches, hdoc', hd', hearlier, hpartition, hfirst, hbatches, hgives,
    -⟩ := batch_of_worker hw found hdecode
  simp only [WorkUnit.toExecution, hname, hindex, hrepositories] at hdoc' hfirst hgives
  cases hdoc.symm.trans hdoc'
  cases hd.symm.trans hd'
  have hother : batches[0]? ≠ some ["first"] := by
    intro hsame
    rw [hbatches, List.getElem?_map, hsame] at hbatch
    revert hbatch
    decide
  exact ⟨w, hw, o, u, doc, d, earlier, batches, found, hdecode, hdoc, hd, hearlier, hpartition,
    hfirst, hother, fun h => hother (hgives.1 h)⟩

end Admission
end CampaignControl
