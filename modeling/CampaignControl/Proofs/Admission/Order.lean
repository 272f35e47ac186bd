import CampaignControl.Proofs.Admission.Alignment
import CampaignControl.Proofs.Store.Alike

/-!
# The order of admission

Discovery answers with the same repositories every time, each of them once, the policy of the
campaign cuts them in the same way every time, and no work unit is removed
(`Admission.Steady`). Then the batches are admitted in the order of their indices. A pass creates a
work unit only when all batches in front of its own have been served (`Admission.Served`), and a
work unit that has been there is there still. The work units are those for the first so many batches
at any time (`Admission.initial`, `Admission.batches_in_order`), however high the ceiling is by
then, whichever requests have failed, and whatever else is going on.
-/

namespace CampaignControl

namespace Admission

open Lifecycle (unitSlot)

variable {excludes : Fleet.Job → Fleet.Job → Prop} {key : Key} {policy : SchedulingPolicy}
  {repositories : List String} {batches : List Batch} {w w' : World Fleet.repertoire}
  {t : Task Fleet.repertoire} {o : Object} {k : Key}

/-! ## Steady worlds -/

/-- At an exchange, the campaign at a key has this partition policy, if there is one, discovery
answers with these repositories, and no work unit is removed. -/
structure SteadyAt (key : Key) (policy : SchedulingPolicy) (repositories : List String)
    (e : Exchange) : Prop where
  partition : ∀ campaign, e.before.campaign? key = some campaign →
    campaign.spec.policy.strategy = policy.strategy ∧
      campaign.spec.policy.batchSize = policy.batchSize
  discovery : ∀ answer, e.discovered? = some answer → answer = repositories
  keeps : ∀ k, e.before.find? (unitSlot k) ≠ none → e.after.find? (unitSlot k) ≠ none

/-- All exchanges have been steady. -/
def Steady (key : Key) (policy : SchedulingPolicy) (repositories : List String)
    (w : World Fleet.repertoire) : Prop :=
  ∀ t ∈ w.tasks, ∀ e ∈ t.past, SteadyAt key policy repositories e

namespace Steady

theorem before_move (h : Steady key policy repositories w') {rules : Rules Fleet.repertoire}
    (hmove : rules.Move w w') : Steady key policy repositories w := by
  intro t ht e he
  obtain ⟨t', ht', -, hpast⟩ := hmove.exists_past ht
  exact h t' ht' e (hpast.subset he)

theorem before_steps (h : Steady key policy repositories w') {rules : Rules Fleet.repertoire}
    (hsteps : rules.Steps w w') : Steady key policy repositories w := by
  induction hsteps with
  | refl => exact h
  | tail _ hstep ih => exact ih (h.before_move hstep.move)

/-- Every pass has come to the same batches. -/
theorem batches_of_cuts (h : Steady key policy repositories w) (ht : t ∈ w.tasks)
    {campaign : Campaign} (hknows : Knows key campaign t.past)
    (hcuts : Cuts campaign batches t.past) :
    Partition.batches repositories policy = .ok batches := by
  obtain ⟨-, s, object, hfind, hread, hdecode⟩ := hknows
  obtain ⟨s', answer, hdiscovery, hbatches⟩ := hcuts
  obtain ⟨hstrategy, hsize⟩ :=
    (h t ht _ hread).partition campaign (Store.campaign?_eq_some.2 ⟨object, hfind, hdecode⟩)
  rw [← (h t ht _ hdiscovery).discovery answer rfl, ← Partition.batches_congr hstrategy hsize,
    hbatches]

/-- Users leave the work units where they are, as long as they delete nothing. -/
theorem keeps_step (h : Steady key policy repositories w')
    (hw : (singleRulesWith excludes key).Reachable w)
    (hstep : (singleRulesWith excludes key).Step w w')
    (hthere : w.store.find? (unitSlot k) ≠ none) : w'.store.find? (unitSlot k) ≠ none := by
  cases hstep.move.cause with
  | none hsame => rwa [hsame]
  | answer ht hrest hanswered hmem =>
    exact (h _ hmem _ (List.mem_append_right _ List.mem_cons_self)).keeps k hthere
  | @outside now r huser hafter =>
    have huser : Fleet.IsUser (· = key) False r := huser
    have hout : w.store.Outcome r w'.store := hafter ▸ Store.serve_outcome hw.sound now r
    obtain ⟨o, found⟩ := Option.ne_none_iff_exists'.1 hthere
    generalize w'.store = s' at hout ⊢
    cases hout with
    | idle hidle => rwa [hidle]
    | create _ hnone =>
      exact Store.find?_withNew_of_some hnone _ found ▸ Option.some_ne_none o
    | revise hold =>
      obtain ⟨o', found', -⟩ := Store.exists_withRevised hold _ found
      exact found' ▸ Option.some_ne_none o'
    | release hold _ hdeleting =>
      obtain ⟨rfl, -⟩ := huser
      exact absurd (Fleet.stays hw _ _ hold (.inl rfl)) (by simp [hdeleting])
    | mark | remove | leave => exact huser.1.elim

theorem keeps_steps (h : Steady key policy repositories w')
    (hw : (singleRulesWith excludes key).Reachable w)
    (hsteps : (singleRulesWith excludes key).Steps w w')
    (hthere : w.store.find? (unitSlot k) ≠ none) : w'.store.find? (unitSlot k) ≠ none := by
  induction hsteps with
  | refl => exact hthere
  | tail hsteps hstep ih =>
    exact h.keeps_step (hw.of_steps hsteps) hstep (ih (h.before_move hstep.move))

/-- Where a work unit has been found, there is one. -/
theorem find?_of_occupied (h : Steady key policy repositories w)
    (hw : (singleRulesWith excludes key).Reachable w) (ht : t ∈ w.tasks)
    (hoccupied : Occupied (unitSlot k) t.past) : w.store.find? (unitSlot k) ≠ none := by
  obtain ⟨e, he, hthere⟩ := hoccupied
  obtain ⟨_, w₀, w₁, -, -, hw₁, htook⟩ := hw.exists_exchange ht he
  exact h.keeps_steps hw₁ htook.after (htook.store_after ▸ hthere)

end Steady

/-! ## Numbered work units -/

/-- A work unit at a key is for the batch at its index, and its key and priority are made of this
index. -/
structure Numbered (key : Key) (policy : SchedulingPolicy) (repositories : List String) (k : Key)
    (u : WorkUnit) : Prop where
  slot_eq : unitSlot k = indexSlot key u.spec.batchIndex
  priority : u.spec.priority.toInt = min u.spec.batchIndex 0x7fffffffffffffff
  batch : ∃ batches, Partition.batches repositories policy = .ok batches ∧
    batches[u.spec.batchIndex]? = some u.spec.repositories

theorem indexSlot_inj {i j : Nat} (h : indexSlot key i = indexSlot key j) : i = j :=
  Naming.workUnit_index_inj (congrArg (·.key.name) h)

theorem toInt_priority (campaign : Campaign) (index : Nat) (batch : Batch) (now : Instant) :
    (workUnit campaign index batch now).spec.priority.toInt = min index 0x7fffffffffffffff := by
  have hindex := Int.natCast_nonneg index
  show (Int64.ofInt (min index 0x7fffffffffffffff)).toInt = _
  rw [Int64.toInt_ofInt_of_le] <;> omega

section
variable (hw : (singleRulesWith excludes key).Reachable w)
  (hsteady : Steady key policy repositories w)
include hw hsteady

theorem exists_numbered (found : w.store.find? (unitSlot k) = some o) :
    ∃ u : WorkUnit, Resource.decode o = .ok u ∧ Numbered key policy repositories k u := by
  obtain ⟨u, hdecode, t, ht, key', campaign, batches, index, batch, now, hknows, hcuts, hbatch,
    hspec⟩ := Fleet.specified hw k o found
  cases key_eq_of_knows hw ht hknows
  refine ⟨u, hdecode, ?_, ?_, batches, hsteady.batches_of_cuts ht hknows hcuts, ?_⟩
  · obtain ⟨owner, u', -, hmet, hdecode', -, -, hname⟩ := (Fleet.descends hw _ o found).of_unit
    cases hdecode.symm.trans hdecode'
    rw [← key_eq_of_met hw hmet]
    exact congrArg (fun name => unitSlot ⟨k.space, name⟩) hname
  · rw [hspec]
    exact toInt_priority ..
  · rw [hspec]
    exact hbatch

/-- What is listed is stored and numbered. -/
theorem numbered_of_listed {filter : Filter} {units : List WorkUnit}
    (hunits : (w.store.list .workUnit filter).mapM Resource.decode = .ok units) {u : WorkUnit}
    (hu : u ∈ units) :
    w.store.find? (indexSlot key u.spec.batchIndex) ≠ none ∧
      Numbered key policy repositories u.key u := by
  obtain ⟨o, found, -, hdecode⟩ := exists_listed hw.sound hunits hu
  obtain ⟨u', hdecode', hnumbered⟩ := exists_numbered hw hsteady (k := u.key) found
  cases hdecode.symm.trans hdecode'
  rw [← hnumbered.slot_eq]
  exact ⟨found ▸ Option.some_ne_none o, hnumbered⟩

/-- A batch that has been served has a work unit. -/
theorem find?_of_served (hnodup : repositories.Nodup) (ht : t ∈ w.tasks) {campaign : Campaign}
    (hknows : Knows key campaign t.past)
    (hbatches : Partition.batches repositories policy = .ok batches) {index : Nat}
    {batch : Batch} (hbatch : batches[index]? = some batch)
    (hserved : Served campaign index batch t.past) :
    w.store.find? (indexSlot key index) ≠ none := by
  obtain ⟨rfl, -⟩ := hknows
  rcases hserved with ⟨units, ⟨e, he, hunits⟩, hcovered⟩ | hoccupied
  · obtain ⟨_, w₀, w₁, -, hw₀, -, htook⟩ := hw.exists_exchange ht he
    rw [← htook.store_before] at hunits
    obtain ⟨u, hu, hcovers⟩ := isCovered_iff.1 hcovered
    have hlater := Relation.ReflTransGen.head htook.step htook.after
    obtain ⟨hthere, hnumbered⟩ :=
      numbered_of_listed hw₀ (hsteady.before_steps hlater) hunits hu
    have hindex : u.spec.batchIndex = index := by
      rcases hcovers with hindex | ⟨-, hsame⟩
      · exact hindex
      · obtain ⟨batches', hbatches', hown⟩ := hnumbered.batch
        cases hbatches.symm.trans hbatches'
        exact separate_of_batches hnodup hbatches _ _ _ _ hown hbatch hsame
    rw [← hindex]
    exact hsteady.keeps_steps hw₀ hlater hthere
  · exact hsteady.find?_of_occupied hw ht hoccupied

end

/-! ## Initial segments -/

/-- There are work units for the first so many indices, and for no others. -/
def Initial (key : Key) (s : Store) : Prop :=
  ∃ n, ∀ i, s.find? (indexSlot key i) ≠ none ↔ i < n

/-- A work unit that is new has the next index. -/
theorem index_of_new (hnodup : repositories.Nodup)
    (hw : (singleRulesWith excludes key).Reachable w)
    (hstep : (singleRulesWith excludes key).Step w w')
    (hsteady : Steady key policy repositories w) {n : Nat}
    (hn : ∀ i, w.store.find? (indexSlot key i) ≠ none ↔ i < n) {index : Nat}
    (hnone : w.store.find? (indexSlot key index) = none)
    (hnew : w'.store.find? (indexSlot key index) ≠ none) : index = n := by
  obtain ⟨o, found⟩ := Option.ne_none_iff_exists'.1 hnew
  rcases Fleet.outcome hw hstep with hsame | ⟨r, hr, hout⟩
  · exact absurd (hsame ▸ hnone) hnew
  · cases hout.source (Fleet.Requested.ne_orphan hr) found with
    | same hold | marked _ _ hold | revised _ _ _ hold => cases hnone.symm.trans hold
    | created now heq hkey =>
      subst heq
      obtain ⟨t, ht, key', hasks⟩ := hr.exists_admission ⟨_, .inr (.inl rfl)⟩
      cases hasks with
      | @createUnit campaign batches i batch time hknows hcuts _ hbatch hserved =>
        cases key_eq_of_knows hw ht hknows
        obtain rfl : i = index := Naming.workUnit_index_inj (congrArg Key.name hkey)
        have hlength : i < batches.length := (List.getElem?_eq_some_iff.1 hbatch).1
        have hbatches := hsteady.batches_of_cuts ht hknows hcuts
        have hbelow : ∀ j, j < i → j < n := by
          intro j hj
          have hother := List.getElem?_eq_getElem (hj.trans hlength)
          exact (hn j).1 (find?_of_served hw hsteady hnodup ht hknows hbatches hother
            (hserved j _ hj hother))
        have hge : ¬ i < n := fun h => (hn i).2 h hnone
        have hle : ¬ n < i := fun h => Nat.lt_irrefl n (hbelow n h)
        omega

theorem Initial.step (hnodup : repositories.Nodup)
    (hw : (singleRulesWith excludes key).Reachable w)
    (hstep : (singleRulesWith excludes key).Step w w')
    (hsteady : Steady key policy repositories w') (h : Initial key w.store) :
    Initial key w'.store := by
  obtain ⟨n, hn⟩ := h
  have hkept : ∀ i, i < n → w'.store.find? (indexSlot key i) ≠ none :=
    fun i hi => hsteady.keeps_step hw hstep ((hn i).2 hi)
  have hnext : ∀ i, w'.store.find? (indexSlot key i) ≠ none → i < n ∨ i = n := by
    intro i hi
    by_cases hnone : w.store.find? (indexSlot key i) = none
    · exact .inr (index_of_new hnodup hw hstep (hsteady.before_move hstep.move) hn hnone hi)
    · exact .inl ((hn i).1 hnone)
  by_cases hlast : w'.store.find? (indexSlot key n) = none
  · refine ⟨n, fun i => ⟨fun hi => ?_, hkept i⟩⟩
    rcases hnext i hi with hlt | rfl
    · exact hlt
    · exact absurd hlast hi
  · refine ⟨n + 1, fun i => ⟨fun hi => by have := hnext i hi; omega, fun hi => ?_⟩⟩
    rcases Nat.lt_succ_iff_lt_or_eq.1 hi with hlt | rfl
    · exact hkept i hlt
    · exact hlast

theorem initial (hnodup : repositories.Nodup)
    (hw : (singleRulesWith excludes key).Reachable w)
    (hsteady : Steady key policy repositories w) : Initial key w.store := by
  revert hsteady
  apply hw.induct (P := fun w => Steady key policy repositories w → Initial key w.store)
  · intro _ _
    exact ⟨0, fun i => ⟨fun h => absurd rfl h, fun h => absurd h (Nat.not_lt_zero i)⟩⟩
  · intro w w' hw ih hstep hsteady
    exact (ih (hsteady.before_move hstep.move)).step hnodup hw hstep hsteady

/-! ## What is listed -/

/-- The work units are owned by the campaign as it is stored. -/
theorem selects_unit (hw : (singleRulesWith excludes key).Reachable w)
    {campaign : Campaign} (hcampaign : w.store.campaign? key = some campaign)
    (found : w.store.find? (unitSlot k) = some o) : (unitFilter campaign).selects o.metadata := by
  obtain ⟨object, hstored, hdecode⟩ := Store.campaign?_eq_some.1 hcampaign
  have hmetadata : campaign.metadata = object.metadata := Resource.metadata_of_decode hdecode
  obtain ⟨owner, u, howner, hmet, -⟩ := (Fleet.descends hw _ o found).of_unit
  have hkey := key_eq_of_met hw hmet
  rw [hkey] at hmet
  have huid : campaign.metadata.uid = some owner.uid :=
    (congrArg Metadata.uid hmetadata).trans (Fleet.uid_of_met hw hmet hstored)
  have hspace : o.metadata.key.space = campaign.key.space := by
    have hplace : campaign.key = key :=
      (congrArg Metadata.key hmetadata).trans (hw.sound.key_eq hstored)
    have hown : o.metadata.key = k := hw.sound.key_eq found
    rw [hown, hplace, ← hkey]
  simp [unitFilter, huid, Filter.selects, howner, hspace]

section
variable (hw : (singleRulesWith excludes key).Reachable w)
  (hsteady : Steady key policy repositories w) {units : List WorkUnit}
include hw hsteady

/-- No two listed work units have the same index. -/
theorem nodup_listed_index {filter : Filter}
    (hunits : (w.store.list .workUnit filter).mapM Resource.decode = .ok units) :
    (units.map (·.spec.batchIndex)).Nodup := by
  have hkeys : units.map Resource.key =
      (units.map (·.spec.batchIndex)).map fun i => (indexSlot key i).key := by
    rw [List.map_map]
    exact List.map_congr_left fun u hu =>
      congrArg Slot.key (numbered_of_listed hw hsteady hunits hu).2.slot_eq
  apply List.Nodup.of_map fun i => (indexSlot key i).key
  rw [← hkeys, map_key_of_mapM hunits]
  exact Store.nodup_list hw.sound ..

/-- The campaign lists a work unit for an index just if there is one in its slot. -/
theorem exists_index_iff {campaign : Campaign}
    (hcampaign : w.store.campaign? key = some campaign)
    (hunits : (w.store.list .workUnit (unitFilter campaign)).mapM Resource.decode = .ok units)
    (i : Nat) :
    (∃ u ∈ units, u.spec.batchIndex = i) ↔ w.store.find? (indexSlot key i) ≠ none := by
  constructor
  · rintro ⟨u, hu, rfl⟩
    exact (numbered_of_listed hw hsteady hunits hu).1
  · intro hi
    obtain ⟨o, found⟩ := Option.ne_none_iff_exists'.1 hi
    have hkey : o.key = (indexSlot key i).key := hw.sound.key_eq found
    have hstored : w.store.find? { kind := .workUnit, key := o.key } = some o := by rwa [hkey]
    have hlisted :=
      (Store.mem_list_iff hw.sound).2 ⟨hstored, selects_unit hw hcampaign found⟩
    obtain ⟨u, hu, hdecode⟩ := exists_mem_of_mapM hunits hlisted
    have hown : u.key = o.key := Resource.key_of_decode hdecode
    have hslot : indexSlot key u.spec.batchIndex = indexSlot key i := by
      rw [← (numbered_of_listed hw hsteady hunits hu).2.slot_eq, hown, hkey]
    exact ⟨u, hu, indexSlot_inj hslot⟩

end

/-- **Batches start in the order of their indices.** Nothing is there at first, users create one
campaign and change it, and passes and the substrate go on side by side, whatever waits for what and
whichever requests fail. Where discovery and the policy are steady and no work unit is removed, the
work units of the campaign are those for the first so many batches. Each of them has its index as
its priority, as far as there are such high priorities, and the repositories of the batch at its
index. -/
theorem batches_in_order (hnodup : repositories.Nodup)
    (hw : (singleRulesWith excludes key).Reachable w)
    (hsteady : Steady key policy repositories w) {campaign : Campaign}
    (hcampaign : w.store.campaign? key = some campaign) :
    ∃ (units : List WorkUnit) (n : Nat),
      (w.store.list .workUnit (unitFilter campaign)).mapM Resource.decode = .ok units ∧
      (units.map (·.spec.batchIndex)).Perm (List.range n) ∧
      ∀ u ∈ units, u.spec.priority.toInt = min u.spec.batchIndex 0x7fffffffffffffff ∧
        ∃ batches, Partition.batches repositories policy = .ok batches ∧
          batches[u.spec.batchIndex]? = some u.spec.repositories := by
  obtain ⟨n, hn⟩ := initial hnodup hw hsteady
  obtain ⟨units, hunits⟩ : ∃ units : List WorkUnit,
      (w.store.list .workUnit (unitFilter campaign)).mapM Resource.decode = .ok units := by
    apply exists_mapM
    intro o ho
    obtain ⟨u, hdecode, -⟩ := Fleet.specified hw o.key o ((Store.mem_list_iff hw.sound).1 ho).1
    exact ⟨u, hdecode⟩
  refine ⟨units, n, hunits, ?_, fun u hu => ?_⟩
  · refine (List.perm_ext_iff_of_nodup (nodup_listed_index hw hsteady hunits) List.nodup_range).2 ?_
    intro i
    rw [List.mem_range, ← hn, List.mem_map]
    exact exists_index_iff hw hsteady hcampaign hunits i
  · obtain ⟨-, hnumbered⟩ := numbered_of_listed hw hsteady hunits hu
    exact ⟨hnumbered.priority, hnumbered.batch⟩

/-! ## A pass that fails -/

/-- Of two work units the second cannot be created, and another pass makes up for it. -/
def sampleFailure : List (Turn Fleet.repertoire) :=
  .outside .epoch (.create .campaign (Resource.encode sampleNightly)) ::
    .start (.pass (.admission {} sampleNightly.key .epoch)) ::
    (List.replicate 8 (.answer 0 .epoch {} ["first", "second", "third"]) ++
      .answer 0 .epoch { outage := true } [] ::
      .start (.pass (.admission {} sampleNightly.key .epoch)) ::
      List.replicate 7 (.answer 1 .epoch {} ["first", "second", "third"]))

/-- Whether an exchange is steady, and nothing at all is removed. -/
def isSteadyAt (key : Key) (policy : SchedulingPolicy) (repositories : List String)
    (e : Exchange) : Bool :=
  ((e.before.campaign? key).all fun campaign =>
      decide (campaign.spec.policy.strategy = policy.strategy ∧
        campaign.spec.policy.batchSize = policy.batchSize)) &&
    e.discovered?.all (· == repositories) &&
    e.before.objects.all fun (slot, _) => (e.after.find? slot).isSome

theorem steadyAt_of_isSteadyAt {e : Exchange} (h : isSteadyAt key policy repositories e) :
    SteadyAt key policy repositories e := by
  simp only [isSteadyAt, Bool.and_eq_true, List.all_eq_true] at h
  obtain ⟨⟨hpartition, hdiscovery⟩, hkeeps⟩ := h
  refine ⟨fun campaign hcampaign => ?_, fun answer hanswer => ?_, fun k hthere => ?_⟩
  · simpa [hcampaign] using hpartition
  · simpa [hanswer] using hdiscovery
  · obtain ⟨o, found⟩ := Option.ne_none_iff_exists'.1 hthere
    exact Option.isSome_iff_ne_none.1 (hkeeps _ (Keyed.mem_of_find? found))

/-- The work units are those for the first two of three batches. -/
theorem batches_in_order_sample : ∃ w : World Fleet.repertoire,
    (singleRules sampleNightly.key).Reachable w ∧ ["first", "second", "third"].Nodup ∧
    Steady sampleNightly.key sampleNightly.spec.policy ["first", "second", "third"] w ∧
    ∃ (campaign : Campaign) (units : List WorkUnit),
      w.store.campaign? sampleNightly.key = some campaign ∧
      (w.store.list .workUnit (unitFilter campaign)).mapM Resource.decode = .ok units ∧
      (units.map (·.spec.batchIndex)).Perm [0, 1] := by
  have hplay : ((singleRules sampleNightly.key).play {} sampleFailure).any fun w =>
      (w.tasks.all fun t => t.past.all (isSteadyAt sampleNightly.key sampleNightly.spec.policy
        ["first", "second", "third"])) &&
      (w.store.campaign? sampleNightly.key).any fun campaign =>
        (w.store.list .workUnit (unitFilter campaign)).length == 2 := by decide +kernel
  obtain ⟨w, hsteps, hcheck⟩ := Rules.exists_of_play hplay
  simp only [Bool.and_eq_true, List.all_eq_true, Option.any_eq_true, beq_iff_eq] at hcheck
  obtain ⟨hall, campaign, hcampaign, hlength⟩ := hcheck
  have hw : (singleRules sampleNightly.key).Reachable w := ⟨trivial, hsteps⟩
  have hnodup : ["first", "second", "third"].Nodup := by decide
  have hsteady : Steady sampleNightly.key sampleNightly.spec.policy ["first", "second", "third"] w :=
    fun t ht e he => steadyAt_of_isSteadyAt (hall t ht e he)
  obtain ⟨units, n, hunits, hperm, -⟩ := batches_in_order hnodup hw hsteady hcampaign
  have hn : n = 2 := by
    rw [← List.length_range (n := n), ← hperm.length_eq, List.length_map,
      ← (mapM_eq_ok_iff.1 hunits).length_eq, hlength]
  subst hn
  exact ⟨w, hw, hnodup, hsteady, campaign, units, hcampaign, hunits, hperm⟩

end Admission
end CampaignControl
