import CampaignControl.Error

/-!
# Partition

Cutting the repositories of a campaign into batches. The batches in order hold the repositories
in order, and a batch is known by its position.
-/

namespace CampaignControl

/-- The repositories of one worker. -/
abbrev Batch := List String

namespace Partition

/-- Batches of the given size, and a shorter last one where the size leaves a remainder. -/
def bySize (size : Nat) (repositories : List String) : List Batch :=
  if repositories = [] ∨ size = 0 then []
  else repositories.take size :: bySize size (repositories.drop size)
termination_by repositories.length
decreasing_by
  rename_i h
  have : 0 < repositories.length := List.length_pos_iff.2 fun e => h (.inl e)
  simp only [List.length_drop]
  omega

/-- Consecutive batches of the given lengths. -/
def byLengths : List Nat → List String → List Batch
  | [], _ => []
  | n :: rest, repositories =>
    repositories.take n :: byLengths rest (repositories.drop n)

/-- The lengths of so many batches that differ by at most one, the longer ones first. -/
def lengths (count total : Nat) : List Nat :=
  List.replicate (total % count) (total / count + 1) ++
    List.replicate (count - total % count) (total / count)

/-- So many batches, or as many as there are repositories, of about the same length. -/
def byCount (count : Nat) (repositories : List String) : List Batch :=
  byLengths (lengths (min count repositories.length) repositories.length) repositories

/-- The batches of a list of repositories. A strategy that needs a positive number is checked
even where there is nothing to cut. -/
def batches (repositories : List String) (policy : SchedulingPolicy) :
    Except Error (List Batch) :=
  if policy.strategy ≠ .none ∧ policy.batchSize.toInt ≤ 0 then
    .error (.invalidBatchSize policy.strategy policy.batchSize)
  else if repositories = [] then .ok []
  else
    match policy.strategy with
    | .none => .ok [repositories]
    | .fixedBatchSize => .ok (bySize policy.batchSize.toInt.toNat repositories)
    | .fixedBatchCount => .ok (byCount policy.batchSize.toInt.toNat repositories)

end Partition
end CampaignControl
