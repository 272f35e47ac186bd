import CampaignControl.Proofs.Admission.Plan

/-!
# What a plan comes to

A plan for a campaign that is not suspended starts the first uncovered batches, as many as there is
room for beside the live work units (`Admission.Starts`), with one new work unit for each
(`Admission.Begins`). The live work units, the uncovered batches and the selected ones are counted
apart; they agree because the selected ones are a prefix of the uncovered ones. A plan for a
suspended campaign only drains (`Admission.plan_selects`).
-/

namespace CampaignControl
namespace Admission

variable {units : List WorkUnit} {batches : List Batch} {campaign : Campaign} {now : Instant}
  {ceiling : Nat}

/-! ## Counting -/

/-- The number of batches that no work unit covers. -/
def pendingCount (units : List WorkUnit) (batches : List Batch) : Nat :=
  batches.zipIdx.countP fun e => !isCovered units e.2 e.1

theorem length_uncovered (units : List WorkUnit) (batches : List Batch) :
    (uncovered units 0 batches).length = pendingCount units batches := by
  rw [uncovered_eq_filter, ← List.countP_eq_length_filter, indexed, List.countP_map]
  rfl

theorem length_selected (units : List WorkUnit) (batches : List Batch) (ceiling : Nat) :
    ((selected units batches ceiling).length : Int) =
      min (max 0 ((ceiling : Int) - liveCount units)) (pendingCount units batches) := by
  rw [selected, List.length_take, length_uncovered, quota]
  omega

/-! ## Selecting -/

theorem mem_uncovered_of_mem_selected {e : Nat × Batch} (h : e ∈ selected units batches ceiling) :
    batches[e.1]? = some e.2 ∧ isCovered units e.1 e.2 = false :=
  mem_uncovered_iff.1 (List.mem_of_mem_take h)

theorem selected_ascending (units : List WorkUnit) (batches : List Batch) (ceiling : Nat) :
    ((selected units batches ceiling).map Prod.fst).Pairwise (· < ·) :=
  (uncovered_ascending units batches).sublist ((List.take_sublist ..).map _)

/-- What is uncovered and stands before a selected batch is selected. -/
theorem mem_selected_of_lt {e e' : Nat × Batch} (h : e ∈ selected units batches ceiling)
    (h' : e' ∈ uncovered units 0 batches) (hlt : e'.1 < e.1) :
    e' ∈ selected units batches ceiling := by
  have hascending := List.pairwise_map.1 (uncovered_ascending units batches)
  unfold selected at h ⊢
  generalize quota (liveCount units) ceiling = room at h ⊢
  rw [← List.take_append_drop room (uncovered units 0 batches), List.mem_append] at h'
  rcases h' with hselected | hleft
  · exact hselected
  · rw [← List.take_append_drop room (uncovered units 0 batches)] at hascending
    have hbehind := (List.pairwise_append.1 hascending).2.2 e h e' hleft
    exact absurd hlt (Nat.lt_asymm hbehind)

/-! ## Covering -/

theorem isCovered_iff_perm {index : Nat} {batch : Batch} (hbatch : batch.Nodup)
    (hunits : ∀ u ∈ units, u.isLive → u.spec.repositories.Nodup) :
    isCovered units index batch ↔ ∃ u ∈ units, u.spec.batchIndex = index ∨
      u.isLive ∧ u.spec.repositories.Perm batch := by
  rw [isCovered_iff]
  refine exists_congr fun u => and_congr_right fun hu => or_congr_right ?_
  exact and_congr_right fun hlive => sameRepositories_iff_perm (hunits u hu hlive) hbatch

/-! ## Plans -/

/-- A work unit that is just to begin with one of the batches. -/
structure Begins (batches : List Batch) (u : WorkUnit) : Prop where
  batch : batches[u.spec.batchIndex]? = some u.spec.repositories
  phase : u.status.phase = .pending
  priority : u.spec.priority.toInt = u.spec.batchIndex
  name_le : u.key.name.utf8ByteSize ≤ 63

/-- The first uncovered batches are started, as many as there is room for, and nothing is
drained. -/
structure Starts (campaign : Campaign) (units : List WorkUnit) (batches : List Batch) (p : Plan) :
    Prop where
  length_create : (p.create.length : Int) =
    min (max 0 ((campaign.spec.policy.parallelism : Int) - units.countP WorkUnit.isLive))
      (pendingCount units batches)
  running_eq : p.running = units.countP WorkUnit.isLive
  pending_eq : p.pending = pendingCount units batches
  ascending : (p.create.map (·.spec.batchIndex)).Pairwise (· < ·)
  begins : ∀ u ∈ p.create, Begins batches u
  not_covered : ∀ u ∈ p.create, isCovered units u.spec.batchIndex u.spec.repositories = false
  first : ∀ u ∈ p.create, ∀ index < u.spec.batchIndex, ∀ batch, batches[index]? = some batch →
    isCovered units index batch = false → ∃ u' ∈ p.create, u'.spec.batchIndex = index
  nodup_names : (p.create.map (·.key.name)).Nodup
  drain_eq : p.drain = []

/-- Indices below `2 ^ 63` are not cut as priorities. -/
theorem begins_workUnit {index : Nat} {batch : Batch} (hbatches : batches.length ≤ 2 ^ 63)
    (hbatch : batches[index]? = some batch) (campaign : Campaign) (now : Instant) :
    Begins batches (workUnit campaign index batch now) := by
  have hlt : index < 2 ^ 63 := (List.getElem?_eq_some_iff.1 hbatch).1.trans_le hbatches
  refine ⟨hbatch, rfl, ?_, ?_⟩
  · show (Int64.ofInt (min index 0x7fffffffffffffff)).toInt = index
    rw [Int64.toInt_ofInt_of_le (by omega) (by omega)]
    omega
  · exact Naming.utf8ByteSize_workUnit_le _ (hlt.trans (by decide))

theorem nodup_names (campaign : Campaign) (units : List WorkUnit) (batches : List Batch)
    (now : Instant) : ((plan campaign units batches now).create.map (·.key.name)).Nodup := by
  have hindices := nodup_create_index campaign units batches now
  rw [List.nodup_map_iff_inj_on hindices.of_map]
  intro u hu u' hu' hname
  refine List.inj_on_of_nodup_map hindices hu hu' ?_
  unfold plan at hu hu'
  split at hu
  · cases hu
  · next hresumed =>
    rw [if_neg hresumed] at hu'
    obtain ⟨e, -, rfl⟩ := List.mem_map.1 hu
    obtain ⟨e', -, rfl⟩ := List.mem_map.1 hu'
    exact Naming.workUnit_index_inj hname

theorem starts_of_not_suspended (h : campaign.spec.suspended = false)
    (hbatches : batches.length ≤ 2 ^ 63) (units : List WorkUnit) (now : Instant) :
    Starts campaign units batches (plan campaign units batches now) := by
  have hnames := nodup_names campaign units batches now
  rw [plan_of_not_suspended h] at hnames ⊢
  refine ⟨?_, rfl, length_uncovered units batches, ?_, ?_, ?_, ?_, hnames, rfl⟩
  · rw [List.length_map]
    exact length_selected units batches _
  · rw [List.map_map]
    exact selected_ascending units batches _
  · intro u hu
    obtain ⟨e, he, rfl⟩ := List.mem_map.1 hu
    exact begins_workUnit hbatches (mem_uncovered_of_mem_selected he).1 campaign now
  · intro u hu
    obtain ⟨e, he, rfl⟩ := List.mem_map.1 hu
    exact (mem_uncovered_of_mem_selected he).2
  · intro u hu index hlt batch hbatch huncovered
    obtain ⟨e, he, rfl⟩ := List.mem_map.1 hu
    have hmem : (index, batch) ∈ selected units batches campaign.spec.policy.parallelism :=
      mem_selected_of_lt he (mem_uncovered_iff.2 ⟨hbatch, huncovered⟩) hlt
    exact ⟨_, List.mem_map_of_mem hmem, rfl⟩

/-- **A plan starts the first uncovered batches**, as many as there is room for beside the live work
units, or drains what is live if the campaign is suspended. A batch is covered by a work unit with
its index or by a live one with the same repositories. There are at most `2 ^ 63` batches, so that
every index can be a priority. -/
theorem plan_selects (campaign : Campaign) (units : List WorkUnit) (batches : List Batch)
    (now : Instant) (hbatches : batches.length ≤ 2 ^ 63) :
    (campaign.spec.suspended = false →
      Starts campaign units batches (plan campaign units batches now)) ∧
    (campaign.spec.suspended = true → (plan campaign units batches now).create = [] ∧
      (plan campaign units batches now).drain =
        (units.filter fun u => u.isLive && !u.metadata.isDeleting).map WorkUnit.key) ∧
    ∀ (index : Nat) (batch : Batch), batch.Nodup →
      (∀ u ∈ units, u.isLive → u.spec.repositories.Nodup) →
      (isCovered units index batch ↔ ∃ u ∈ units, u.spec.batchIndex = index ∨
        u.isLive ∧ u.spec.repositories.Perm batch) := by
  refine ⟨fun h => starts_of_not_suspended h hbatches units now, fun h => ?_,
    fun index batch hbatch hunits => isCovered_iff_perm hbatch hunits⟩
  rw [plan, if_pos h]
  exact ⟨rfl, rfl⟩

/-- A campaign with room for three work units. -/
def sampleRoom : Campaign where
  metadata := { key := { space := "fleet", name := "sweep" } }
  spec := { policy := { parallelism := 3 } }

def sampleCut : List Batch := [["a"], ["b"], ["c", "d"], ["e"], ["f"]]

/-- The first batch is finished, and a live work unit for another index holds the third one. -/
def sampleListed : List WorkUnit :=
  let first := workUnit sampleRoom 0 ["a"] .epoch
  [{ first with status := { first.status with phase := .succeeded } },
    workUnit sampleRoom 7 ["d", "c"] .epoch]

/-- Two of the three uncovered batches are started, around one that is covered in another order. -/
theorem plan_selects_sample : sampleCut.length ≤ 2 ^ 63 ∧
    (plan sampleRoom sampleListed sampleCut .epoch).create.map (·.spec.batchIndex) = [1, 3] ∧
    Starts sampleRoom sampleListed sampleCut (plan sampleRoom sampleListed sampleCut .epoch) ∧
    (plan { sampleRoom with spec := { suspended := true } } sampleListed sampleCut .epoch).drain =
      [{ space := "fleet", name := "sweep-batch-7" }] ∧
    ∃ u ∈ sampleListed, u.isLive ∧ u.spec.repositories.Perm ["c", "d"] := by
  have hlength : sampleCut.length ≤ 2 ^ 63 := by decide
  have hlists : ∀ u ∈ sampleListed, u.isLive → u.spec.repositories.Nodup := by decide
  obtain ⟨hstarts, -, hcovered⟩ := plan_selects sampleRoom sampleListed sampleCut .epoch hlength
  obtain ⟨-, hdrains, -⟩ := plan_selects { sampleRoom with spec := { suspended := true } }
    sampleListed sampleCut .epoch hlength
  refine ⟨hlength, by decide +kernel, hstarts rfl, (hdrains rfl).2.trans (by decide +kernel), ?_⟩
  obtain ⟨u, hu, hindex | hperm⟩ := (hcovered 2 ["c", "d"] (by decide) hlists).1 (by decide +kernel)
  · revert u
    decide
  · exact ⟨u, hu, hperm⟩

end Admission
end CampaignControl
