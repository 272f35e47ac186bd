import CampaignControl.Partition
import Mathlib.Algebra.GroupWithZero.Nat
import Mathlib.Data.List.Nodup

/-!
# What a partition is

A policy is accepted for all repositories or for none (`Partition.isAccepted_iff`). The batches of a
list of repositories, one after the other, are the repositories, and none of them is empty
(`Partition.Cut`).
-/

namespace CampaignControl

/-- Batches can be cut by a policy, whatever the repositories are. -/
def SchedulingPolicy.IsAccepted (p : SchedulingPolicy) : Prop :=
  p.strategy = .none ∨ 0 < p.batchSize.toInt

instance (p : SchedulingPolicy) : Decidable p.IsAccepted :=
  inferInstanceAs (Decidable (p.strategy = .none ∨ 0 < p.batchSize.toInt))

namespace Partition

/-! ## Accepted policies -/

section Accepted

variable {policy : SchedulingPolicy} {repositories : List String} {e : Error}

theorem batches_of_isAccepted (h : policy.IsAccepted) (repositories : List String) :
    ∃ cut, batches repositories policy = .ok cut := by
  have hpositive : ¬ (policy.strategy ≠ .none ∧ policy.batchSize.toInt ≤ 0) := by
    rintro ⟨hne, hle⟩
    rcases h with h | h
    · exact hne h
    · exact Int.not_le.2 h hle
  unfold batches
  rw [if_neg hpositive]
  split
  · exact ⟨_, rfl⟩
  · cases policy.strategy <;> exact ⟨_, rfl⟩

theorem batches_of_not_isAccepted (h : ¬ policy.IsAccepted) (repositories : List String) :
    batches repositories policy =
      .error (.invalidBatchSize policy.strategy policy.batchSize) := by
  obtain ⟨hne, hnot⟩ := not_or.1 h
  unfold batches
  rw [if_pos ⟨hne, Int.not_lt.1 hnot⟩]

/-- A policy is accepted for all repositories, or for none. -/
theorem isAccepted_iff (policy : SchedulingPolicy) (repositories : List String) :
    policy.IsAccepted ↔ ∃ cut, batches repositories policy = .ok cut := by
  refine ⟨fun h => batches_of_isAccepted h repositories, fun ⟨cut, hcut⟩ => ?_⟩
  refine Decidable.byContradiction fun h => ?_
  cases hcut.symm.trans (batches_of_not_isAccepted h repositories)

/-- A policy that is not accepted is rejected with the same error for all repositories. -/
theorem batches_eq_error_iff : batches repositories policy = .error e ↔
    ¬ policy.IsAccepted ∧ e = .invalidBatchSize policy.strategy policy.batchSize := by
  constructor
  · intro h
    have hnot : ¬ policy.IsAccepted := fun haccepted => by
      obtain ⟨cut, hok⟩ := batches_of_isAccepted haccepted repositories
      cases h.symm.trans hok
    exact ⟨hnot, Except.error.inj (h.symm.trans (batches_of_not_isAccepted hnot repositories))⟩
  · rintro ⟨hnot, rfl⟩
    exact batches_of_not_isAccepted hnot repositories

end Accepted

/-! ## Cuts -/

/-- The ceiling of a policy does not matter for its batches. -/
theorem batches_congr {policy policy' : SchedulingPolicy}
    (hstrategy : policy.strategy = policy'.strategy)
    (hsize : policy.batchSize = policy'.batchSize) (repositories : List String) :
    batches repositories policy = batches repositories policy' := by
  unfold batches
  rw [hstrategy, hsize]

/-- A list is cut into batches. -/
structure Cut (repositories : List String) (batches : List Batch) : Prop where
  flatten : batches.flatten = repositories
  ne_nil : ∀ batch ∈ batches, batch ≠ []

theorem bySize_cut {size : Nat} (hsize : 0 < size) (repositories : List String) :
    Cut repositories (bySize size repositories) := by
  fun_induction bySize size repositories with
  | case1 repositories h =>
    rcases h with rfl | rfl
    · exact ⟨rfl, nofun⟩
    · cases hsize
  | case2 repositories h ih =>
    refine ⟨?_, fun batch hbatch => ?_⟩
    · rw [List.flatten_cons, ih.flatten, List.take_append_drop]
    · rcases List.mem_cons.1 hbatch with rfl | hbatch
      · rw [ne_eq, List.take_eq_nil_iff]
        exact fun hnil => h hnil.symm
      · exact ih.ne_nil batch hbatch

theorem byLengths_cut {lengths : List Nat} {repositories : List String}
    (hpos : ∀ n ∈ lengths, 0 < n) (hsum : lengths.sum = repositories.length) :
    Cut repositories (byLengths lengths repositories) := by
  induction lengths generalizing repositories with
  | nil =>
    have hnil : repositories = [] := List.length_eq_zero_iff.1 hsum.symm
    exact ⟨hnil.symm, nofun⟩
  | cons n rest ih =>
    have hn : 0 < n := hpos n List.mem_cons_self
    rw [List.sum_cons] at hsum
    obtain ⟨hflatten, hne⟩ := @ih (repositories.drop n)
      (fun m hm => hpos m (List.mem_cons_of_mem _ hm)) (by rw [List.length_drop]; omega)
    refine ⟨?_, fun batch hbatch => ?_⟩
    · rw [byLengths, List.flatten_cons, hflatten, List.take_append_drop]
    · rcases List.mem_cons.1 hbatch with rfl | hbatch
      · rw [ne_eq, List.take_eq_nil_iff, ← List.length_eq_zero_iff]
        omega
      · exact hne batch hbatch

theorem sum_lengths {count : Nat} (hcount : 0 < count) (total : Nat) :
    (lengths count total).sum = total := by
  have hlt := Nat.mod_lt total hcount
  have hdiv := Nat.div_add_mod total count
  have hle : total % count * (total / count) ≤ count * (total / count) :=
    Nat.mul_le_mul_right _ (Nat.le_of_lt hlt)
  simp only [lengths, List.sum_append_nat, List.sum_replicate_nat,
    Nat.sub_mul, Nat.mul_add, Nat.mul_one]
  omega

theorem pos_of_mem_lengths {count total n : Nat} (hcount : 0 < count) (hle : count ≤ total)
    (h : n ∈ lengths count total) : 0 < n := by
  have := Nat.div_pos hle hcount
  rcases List.mem_append.1 h with h | h
  · rw [List.eq_of_mem_replicate h]
    omega
  · rwa [List.eq_of_mem_replicate h]

theorem byCount_cut {count : Nat} (hcount : 0 < count) {repositories : List String}
    (hne : repositories ≠ []) : Cut repositories (byCount count repositories) := by
  have hlength := List.length_pos_iff.2 hne
  have hmin : 0 < min count repositories.length := Nat.lt_min.2 ⟨hcount, hlength⟩
  exact byLengths_cut (fun n => pos_of_mem_lengths hmin (Nat.min_le_right _ _))
    (sum_lengths hmin _)

/-- Where there are batches of a list of repositories, it is cut into them. -/
theorem cut_of_batches {repositories : List String} {policy : SchedulingPolicy}
    {cut : List Batch} (h : batches repositories policy = .ok cut) : Cut repositories cut := by
  unfold batches at h
  split at h
  · cases h
  · next hsize =>
    split at h
    · next hnil =>
      cases h
      exact ⟨hnil.symm, nofun⟩
    · next hne =>
      have hpos : policy.strategy ≠ .none → 0 < policy.batchSize.toInt.toNat := by
        intro hstrategy
        have := not_and.1 hsize hstrategy
        omega
      split at h <;> cases h
      · exact ⟨List.append_nil _, fun batch hbatch => List.mem_singleton.1 hbatch ▸ hne⟩
      · next hstrategy => exact bySize_cut (hpos (by rw [hstrategy]; nofun)) repositories
      · next hstrategy => exact byCount_cut (hpos (by rw [hstrategy]; nofun)) hne

/-- No repository that is listed once is in two batches. -/
theorem Cut.disjoint {repositories : List String} {cut : List Batch} (h : Cut repositories cut)
    (hnodup : repositories.Nodup) : cut.Pairwise List.Disjoint := by
  rw [← h.flatten] at hnodup
  exact (List.nodup_flatten.1 hnodup).2

end Partition
end CampaignControl
