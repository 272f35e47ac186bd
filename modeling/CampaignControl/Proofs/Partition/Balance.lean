import CampaignControl.Proofs.Partition
import Mathlib.Algebra.Order.Floor.Div

/-!
# How batches are balanced

Batches of a given size are full except for the last one, and a given number of batches have lengths
that differ by at most one, with the longer ones first (`Partition.Balanced`). For batches by size
this is read off the batch at each index (`Partition.getElem?_bySize`), and for a number of batches
off the list of their lengths.

The same batches are cut out of the list by slices from a running offset (`Partition.slicing?`),
where every slice has to lie in the list and no divisor may be zero. That this never fails is part
of the main statement (`Partition.batches_cut_balanced`).
-/

namespace CampaignControl
namespace Partition

variable {repositories : List String} {size count total i : Nat} {policy : SchedulingPolicy}

/-! ## Batches by size -/

/-- The batch at an index starts where so many full batches end. -/
theorem getElem?_bySize (hsize : 0 < size) (repositories : List String) (i : Nat) :
    (bySize size repositories)[i]? =
      if i * size < repositories.length then some ((repositories.drop (i * size)).take size)
      else none := by
  fun_induction bySize size repositories generalizing i with
  | case1 repositories h =>
    obtain rfl : repositories = [] := h.resolve_right (Nat.ne_of_gt hsize)
    simp
  | case2 repositories h ih =>
    have hpos : 0 < repositories.length := List.length_pos_iff.2 fun hnil => h (.inl hnil)
    cases i with
    | zero => simp [hpos]
    | succ i =>
      have hlt : i * size < repositories.length - size ↔ (i + 1) * size < repositories.length := by
        rw [Nat.add_mul, Nat.one_mul]
        omega
      rw [List.getElem?_cons_succ, ih, List.length_drop, List.drop_drop, Nat.add_comm size,
        ← Nat.succ_mul]
      simp only [hlt]

/-- The number of batches by size is the quotient, rounded up. -/
theorem length_bySize (hsize : 0 < size) (repositories : List String) :
    (bySize size repositories).length = repositories.length ⌈/⌉ size := by
  refine eq_of_forall_ge_iff fun i => ?_
  have hnone := getElem?_bySize hsize repositories i
  rw [ceilDiv_le_iff_le_smul hsize, smul_eq_mul, Nat.mul_comm, ← List.getElem?_eq_none_iff, hnone]
  split <;> simp <;> omega

/-- A batch by size that is not full is followed by no other batch. -/
theorem length_of_mem_dropLast_bySize (hsize : 0 < size) {batch : Batch}
    (h : batch ∈ (bySize size repositories).dropLast) : batch.length = size := by
  obtain ⟨i, hi, rfl⟩ := List.mem_iff_getElem.1 h
  rw [List.length_dropLast] at hi
  have hnext : (i + 1) * size < repositories.length := by
    by_contra hnot
    have hnone := getElem?_bySize hsize repositories (i + 1)
    rw [if_neg hnot, List.getElem?_eq_none_iff] at hnone
    omega
  have hbatch := getElem?_bySize hsize repositories i
  rw [Nat.succ_mul] at hnext
  rw [if_pos (by omega), List.getElem?_eq_some_iff] at hbatch
  obtain ⟨_, hbatch⟩ := hbatch
  rw [List.getElem_dropLast, hbatch, List.length_take, List.length_drop]
  omega

theorem length_le_of_mem_bySize {batch : Batch} (h : batch ∈ bySize size repositories) :
    batch.length ≤ size := by
  fun_induction bySize size repositories with
  | case1 => cases h
  | case2 repositories _ ih =>
    rcases List.mem_cons.1 h with rfl | h
    · exact List.length_take_le ..
    · exact ih h

/-! ## A number of batches -/

theorem map_length_byLengths {lengths : List Nat} (h : lengths.sum ≤ repositories.length) :
    (byLengths lengths repositories).map List.length = lengths := by
  induction lengths generalizing repositories with
  | nil => rfl
  | cons n rest ih =>
    rw [List.sum_cons] at h
    have hrest : rest.sum ≤ (repositories.drop n).length := by
      rw [List.length_drop]
      omega
    rw [byLengths, List.map_cons, ih hrest, List.length_take, Nat.min_eq_left (by omega)]

theorem length_lengths (hcount : 0 < count) (total : Nat) :
    (lengths count total).length = count := by
  have := Nat.mod_lt total hcount
  rw [lengths, List.length_append, List.length_replicate, List.length_replicate]
  omega

/-- The lengths by index: so many of the first ones are longer by one as the remainder says. -/
theorem lengths_eq_map (hcount : 0 < count) (total : Nat) : lengths count total =
    (List.range count).map fun i => total / count + if i < total % count then 1 else 0 := by
  refine List.ext_getElem ?_ fun i _ _ => ?_
  · rw [length_lengths hcount, List.length_map, List.length_range]
  · simp only [lengths, List.getElem_append, List.length_replicate, List.getElem_replicate,
      List.getElem_map, List.getElem_range]
    split <;> rfl

theorem lengths_descending (hcount : 0 < count) (total : Nat) :
    (lengths count total).Pairwise (· ≥ ·) := by
  rw [lengths_eq_map hcount, List.pairwise_map]
  refine (List.pairwise_lt_range).imp fun {i j} hij => ?_
  show _ ≤ _
  split <;> split <;> omega

theorem le_succ_of_mem_lengths {m n : Nat} (hm : m ∈ lengths count total)
    (hn : n ∈ lengths count total) : m ≤ n + 1 := by
  have hquotient : ∀ k ∈ lengths count total, k = total / count + 1 ∨ k = total / count :=
    fun k hk => (List.mem_append.1 hk).imp List.eq_of_mem_replicate List.eq_of_mem_replicate
  have := hquotient m hm
  have := hquotient n hn
  omega

/-! ## Balance -/

/-- Batches of a given size: as many as are needed for so many repositories, none of them longer,
and full except for the last one. -/
structure OfSize (size total : Nat) (cut : List Batch) : Prop where
  length : cut.length = total ⌈/⌉ size
  le : ∀ batch ∈ cut, batch.length ≤ size
  full : ∀ batch ∈ cut.dropLast, batch.length = size

/-- So many batches, or as many as there are repositories, of about the same length, the longer ones
first. -/
structure OfCount (count total : Nat) (cut : List Batch) : Prop where
  length : cut.length = min count total
  descending : (cut.map List.length).Pairwise (· ≥ ·)
  even : ∀ a ∈ cut, ∀ b ∈ cut, a.length ≤ b.length + 1

/-- What a policy asks of the batches of so many repositories. -/
def Balanced (policy : SchedulingPolicy) (total : Nat) (cut : List Batch) : Prop :=
  match policy.strategy with
  | .none => 0 < total → cut.length = 1
  | .fixedBatchSize => OfSize policy.batchSize.toInt.toNat total cut
  | .fixedBatchCount => OfCount policy.batchSize.toInt.toNat total cut

theorem bySize_ofSize (hsize : 0 < size) (repositories : List String) :
    OfSize size repositories.length (bySize size repositories) where
  length := length_bySize hsize repositories
  le _ := length_le_of_mem_bySize
  full _ := length_of_mem_dropLast_bySize hsize

theorem byCount_ofCount (hcount : 0 < count) (hne : repositories ≠ []) :
    OfCount count repositories.length (byCount count repositories) := by
  have hmin : 0 < min count repositories.length :=
    Nat.lt_min.2 ⟨hcount, List.length_pos_iff.2 hne⟩
  have hlengths : (byCount count repositories).map List.length =
      lengths (min count repositories.length) repositories.length :=
    map_length_byLengths (Nat.le_of_eq (sum_lengths hmin _))
  refine ⟨?_, ?_, fun a ha b hb => ?_⟩
  · rw [← List.length_map, hlengths, length_lengths hmin]
  · rw [hlengths]
    exact lengths_descending hmin _
  · have hmem : ∀ batch ∈ byCount count repositories, batch.length ∈
        lengths (min count repositories.length) repositories.length :=
      fun batch hbatch => hlengths ▸ List.mem_map_of_mem hbatch
    exact le_succ_of_mem_lengths (hmem a ha) (hmem b hb)

theorem balanced_nil (policy : SchedulingPolicy) : Balanced policy 0 [] := by
  unfold Balanced
  split
  · nofun
  · exact ⟨(zero_ceilDiv _).symm, nofun, nofun⟩
  · exact ⟨(Nat.min_zero _).symm, .nil, nofun⟩

theorem balanced_of_batches {cut : List Batch} (h : batches repositories policy = .ok cut) :
    Balanced policy repositories.length cut := by
  have haccepted : policy.IsAccepted := (isAccepted_iff policy repositories).2 ⟨cut, h⟩
  unfold batches at h
  split at h
  · cases h
  · split at h
    · next hnil =>
      cases h
      rw [hnil]
      exact balanced_nil policy
    · next hne =>
      unfold Balanced
      have hpos : policy.strategy ≠ .none → 0 < policy.batchSize.toInt.toNat := fun hstrategy =>
        Int.lt_toNat.2 (haccepted.resolve_left hstrategy)
      cases hstrategy : policy.strategy <;> rw [hstrategy] at h hpos <;> cases h
      · exact fun _ => rfl
      · exact byCount_ofCount (hpos nofun) hne
      · exact bySize_ofSize (hpos nofun) repositories

/-! ## Slices -/

/-- The repositories from one position of the list up to another, where both are positions of it. -/
def slice? (repositories : List String) (start stop : Nat) : Option Batch :=
  if start ≤ stop ∧ stop ≤ repositories.length then some (repositories.extract start stop)
  else none

/-- Quotient and remainder by a number other than zero. -/
def divMod? (total count : Nat) : Option (Nat × Nat) :=
  if count = 0 then none else some (total / count, total % count)

/-- Slices of a size other than zero from an offset up to the end of the list. -/
def slicesBySize? (repositories : List String) (size offset : Nat) : Option (List Batch) :=
  if size = 0 then none
  else if offset < repositories.length then do
    let stop := min (offset + size) repositories.length
    let batch ← slice? repositories offset stop
    let rest ← slicesBySize? repositories size stop
    some (batch :: rest)
  else some []
termination_by repositories.length - offset

/-- So many more slices from an offset on, each with its index: those before the remainder are
longer by one. -/
def slicesByIndex? (repositories : List String) (base remainder : Nat) :
    (more index offset : Nat) → Option (List Batch)
  | 0, _, _ => some []
  | more + 1, index, offset => do
    let stop := offset + (base + if index < remainder then 1 else 0)
    let batch ← slice? repositories offset stop
    let rest ← slicesByIndex? repositories base remainder more (index + 1) stop
    some (batch :: rest)

def slicesByCount? (repositories : List String) (count : Nat) : Option (List Batch) := do
  let count := min count repositories.length
  let (base, remainder) ← divMod? repositories.length count
  slicesByIndex? repositories base remainder count 0 0

/-- The number of a policy as a length: the largest one where it is larger than that. -/
def clamped (n : Int64) : Nat := min n.toInt.toNat (2 ^ 64 - 1)

/-- The batches as slices of the list. There is no answer where a slice ends outside of the list, or
where something is divided by zero. -/
def slicing? (repositories : List String) (policy : SchedulingPolicy) :
    Option (Except Error (List Batch)) :=
  if policy.strategy ≠ .none ∧ policy.batchSize.toInt ≤ 0 then
    some (.error (.invalidBatchSize policy.strategy policy.batchSize))
  else if repositories = [] then some (.ok [])
  else
    match policy.strategy with
    | .none => some (.ok [repositories])
    | .fixedBatchSize =>
      (slicesBySize? repositories (clamped policy.batchSize) 0).map .ok
    | .fixedBatchCount =>
      (slicesByCount? repositories (clamped policy.batchSize)).map .ok

theorem slice?_eq_some {start stop : Nat} (hstart : start ≤ stop)
    (hstop : stop ≤ repositories.length) :
    slice? repositories start stop = some ((repositories.drop start).take (stop - start)) := by
  rw [slice?, if_pos ⟨hstart, hstop⟩, List.extract_eq_take_drop]

theorem slicesBySize?_eq_some (hsize : 0 < size) (repositories : List String) (offset : Nat) :
    slicesBySize? repositories size offset = some (bySize size (repositories.drop offset)) := by
  fun_induction slicesBySize? repositories size offset with
  | case1 _ hzero => exact absurd hzero (Nat.ne_of_gt hsize)
  | case2 offset _ hlt stop ih =>
    have hne : ¬ (repositories.drop offset = [] ∨ size = 0) := by
      rw [List.drop_eq_nil_iff]
      omega
    have hslice : slice? repositories offset stop =
        some ((repositories.drop offset).take size) := by
      rw [slice?_eq_some (by omega) (Nat.min_le_right ..), Option.some.injEq, List.take_eq_take_iff,
        List.length_drop]
      omega
    have hrest : repositories.drop stop = (repositories.drop offset).drop size := by
      rw [List.drop_drop, List.drop_eq_drop_min (i := offset + size)]
    rw [hslice, ih, hrest]
    conv_rhs => rw [bySize, if_neg hne]
    rfl
  | case3 offset _ hlt =>
    rw [List.drop_eq_nil_of_le (Nat.not_lt.1 hlt), bySize, if_pos (.inl rfl)]

theorem slicesByIndex?_eq_some {base remainder more index offset : Nat}
    (h : offset + ((List.range' index more).map
      fun i => base + if i < remainder then 1 else 0).sum ≤ repositories.length) :
    slicesByIndex? repositories base remainder more index offset =
      some (byLengths ((List.range' index more).map fun i => base + if i < remainder then 1 else 0)
        (repositories.drop offset)) := by
  induction more generalizing index offset with
  | zero => rfl
  | succ more ih =>
    rw [List.range'_succ, List.map_cons, List.sum_cons, ← Nat.add_assoc] at h
    rw [List.range'_succ, List.map_cons, slicesByIndex?,
      slice?_eq_some (Nat.le_add_right ..) (Nat.le_of_add_right_le h), Nat.add_sub_cancel_left,
      ih h, byLengths, List.drop_drop]
    rfl

theorem slicesByCount?_eq_some (hcount : 0 < count) (hne : repositories ≠ []) :
    slicesByCount? repositories count = some (byCount count repositories) := by
  have hmin : 0 < min count repositories.length :=
    Nat.lt_min.2 ⟨hcount, List.length_pos_iff.2 hne⟩
  have hlengths := lengths_eq_map hmin repositories.length
  have hsum := sum_lengths hmin repositories.length
  rw [hlengths, List.range_eq_range'] at hsum
  rw [byCount, hlengths, List.range_eq_range', slicesByCount?, divMod?, if_neg (Nat.ne_of_gt hmin)]
  exact slicesByIndex?_eq_some (by omega)

theorem clamped_eq (n : Int64) : clamped n = n.toInt.toNat := by
  have := n.toInt_lt
  unfold clamped
  omega

/-- Every slice lies in the list, and nothing is divided by zero. -/
theorem slicing?_eq_some (repositories : List String) (policy : SchedulingPolicy) :
    slicing? repositories policy = some (batches repositories policy) := by
  unfold slicing? batches
  split
  · rfl
  · next hsize =>
    split
    · rfl
    · next hne =>
      have hpos : policy.strategy ≠ .none → 0 < policy.batchSize.toInt.toNat := fun hstrategy =>
        Int.lt_toNat.2 (Int.not_le.1 fun hle => hsize ⟨hstrategy, hle⟩)
      rw [clamped_eq]
      cases hstrategy : policy.strategy with
      | none => rfl
      | fixedBatchSize =>
        have hsize := hpos (by rw [hstrategy]; nofun)
        exact congrArg (Option.map Except.ok) (slicesBySize?_eq_some hsize repositories 0)
      | fixedBatchCount =>
        have hcount := hpos (by rw [hstrategy]; nofun)
        exact congrArg (Option.map Except.ok) (slicesByCount?_eq_some hcount hne)

/-! ## The partition -/

/-- A partition fails exactly for a sized strategy without a positive number, whatever the
repositories are, and else cuts them completely into balanced batches. -/
theorem batches_cut_balanced (repositories : List String) (policy : SchedulingPolicy) :
    (∀ e, batches repositories policy = .error e ↔
      (policy.strategy ≠ .none ∧ policy.batchSize.toInt ≤ 0) ∧
        e = .invalidBatchSize policy.strategy policy.batchSize) ∧
    (policy.strategy = .none ∨ 0 < policy.batchSize.toInt →
      ∃ cut, batches repositories policy = .ok cut ∧ Cut repositories cut ∧
        (repositories = [] → cut = []) ∧ Balanced policy repositories.length cut) ∧
    slicing? repositories policy = some (batches repositories policy) := by
  refine ⟨fun e => ?_, fun haccepted => ?_, slicing?_eq_some repositories policy⟩
  · rw [batches_eq_error_iff, SchedulingPolicy.IsAccepted, not_or, Int.not_lt]
  · obtain ⟨cut, hcut⟩ := batches_of_isAccepted haccepted repositories
    have hwhole := cut_of_batches hcut
    refine ⟨cut, hcut, hwhole, fun hnil => ?_, balanced_of_batches hcut⟩
    rw [hnil] at hwhole
    exact List.eq_nil_iff_forall_not_mem.2 fun batch hbatch =>
      hwhole.ne_nil batch hbatch (List.flatten_eq_nil_iff.1 hwhole.flatten batch hbatch)

end Partition
end CampaignControl
