import CampaignControl.Admission.Plan
import CampaignControl.Proofs.Naming
import CampaignControl.Proofs.Partition

/-!
# What is left of a plan

A plan takes the uncovered batches from the front, as many as there is room for beside the live
work units. When some of the work units of a plan are there, another plan for the same batches has
less room, and fewer batches are uncovered. It comes to just the others of the first plan
(`Admission.selected_append`): as much room is taken as there are batches covered, provided that a
work unit covers no batch but its own. That is so if no repository is listed twice
(`Admission.Separate`).
-/

namespace CampaignControl
namespace Admission

variable {units units' news : List WorkUnit} {batches : List Batch} {ceiling start : Nat}
  {campaign : Campaign} {now : Instant}

/-! ## Owners -/

/-- Who is owned by something has its identity as owner. -/
theorem uid_asOwner (m : Metadata) (kind : String) :
    (m.asOwner kind).map (·.uid) = m.uid := by
  unfold Metadata.asOwner
  cases m.uid <;> rfl

/-- A work unit belongs to the campaign that it has been made for. -/
theorem owner_workUnit (campaign : Campaign) (index : Nat) (batch : Batch) (now : Instant) :
    (workUnit campaign index batch now).metadata.owner.map (·.uid) = campaign.metadata.uid :=
  uid_asOwner ..

/-! ## Batches and their indices -/

/-- The batches, each with its index. The first batch has the given one. -/
def indexed (start : Nat) (batches : List Batch) : List (Nat × Batch) :=
  (batches.zipIdx start).map Prod.swap

theorem map_fst_indexed (start : Nat) (batches : List Batch) :
    (indexed start batches).map Prod.fst = List.range' start batches.length := by
  rw [indexed, List.map_map, ← List.zipIdx_map_snd]
  rfl

theorem mem_indexed_iff {e : Nat × Batch} : e ∈ indexed 0 batches ↔ batches[e.1]? = some e.2 := by
  rw [indexed, List.mem_map]
  constructor
  · rintro ⟨⟨batch, index⟩, hmem, rfl⟩
    exact List.mem_zipIdx_iff_getElem?.1 hmem
  · intro hbatch
    exact ⟨e.swap, List.mem_zipIdx_iff_getElem?.2 hbatch, rfl⟩

theorem uncovered_eq_filter (units : List WorkUnit) (start : Nat) (batches : List Batch) :
    uncovered units start batches =
      (indexed start batches).filter fun e => !isCovered units e.1 e.2 := by
  induction batches generalizing start with
  | nil => rfl
  | cons batch rest ih =>
    show uncovered units start (batch :: rest) =
      ((start, batch) :: indexed (start + 1) rest).filter _
    rw [uncovered, List.filter_cons, ih]
    cases isCovered units start batch <;> rfl

/-- The uncovered batches are in the order of their indices. -/
theorem uncovered_ascending (units : List WorkUnit) (batches : List Batch) :
    ((uncovered units 0 batches).map Prod.fst).Pairwise (· < ·) := by
  rw [uncovered_eq_filter]
  refine List.Pairwise.sublist (List.filter_sublist.map _) ?_
  rw [map_fst_indexed]
  exact List.pairwise_lt_range'

theorem nodup_uncovered (units : List WorkUnit) (batches : List Batch) :
    ((uncovered units 0 batches).map Prod.fst).Nodup :=
  (uncovered_ascending units batches).imp Nat.ne_of_lt

/-- The batches that are selected have different indices. -/
theorem nodup_selected (units : List WorkUnit) (batches : List Batch) (ceiling : Nat) :
    ((selected units batches ceiling).map Prod.fst).Nodup :=
  ((List.take_sublist ..).map _).nodup (nodup_uncovered units batches)

theorem mem_uncovered_iff {e : Nat × Batch} :
    e ∈ uncovered units 0 batches ↔
      batches[e.1]? = some e.2 ∧ isCovered units e.1 e.2 = false := by
  rw [uncovered_eq_filter, List.mem_filter, mem_indexed_iff, Bool.not_eq_true']

/-! ## What a plan depends on -/

section
variable (h : (units'.map fun u => (u.spec, u.status)).Perm (units.map fun u => (u.spec, u.status)))
include h

/-- A plan depends on what the work units are for and how they are, and not on their order. -/
theorem isCovered_congr (index : Nat) (batch : Batch) :
    isCovered units' index batch = isCovered units index batch := by
  have hany := h.any_eq (f := fun p : WorkUnit.Spec × WorkUnit.Status => p.1.batchIndex == index ||
    (!p.2.phase.isTerminal && sameRepositories p.1.repositories batch))
  rwa [List.any_map, List.any_map] at hany

theorem liveCount_congr : liveCount units' = liveCount units := by
  have hcount := h.countP_eq fun p : WorkUnit.Spec × WorkUnit.Status => !p.2.phase.isTerminal
  rwa [List.countP_map, List.countP_map] at hcount

theorem selected_congr (batches : List Batch) (ceiling : Nat) :
    selected units' batches ceiling = selected units batches ceiling := by
  rw [selected, selected, liveCount_congr h, uncovered_eq_filter, uncovered_eq_filter]
  simp only [isCovered_congr h]

theorem create_congr (campaign : Campaign) (batches : List Batch) (now : Instant) :
    (plan campaign units' batches now).create = (plan campaign units batches now).create := by
  unfold plan
  split
  · rfl
  · exact congrArg (List.map _) (selected_congr h batches _)

end

/-! ## Batches that have nothing in common -/

/-- No two batches have the same repositories. -/
def Separate (batches : List Batch) : Prop :=
  ∀ (i j : Nat) (a b : Batch), batches[i]? = some a → batches[j]? = some b →
    sameRepositories a b → i = j

/-- Where no repository is listed twice, the batches are separate. -/
theorem separate_of_batches {repositories : List String} {policy : SchedulingPolicy}
    (hnodup : repositories.Nodup) (h : Partition.batches repositories policy = .ok batches) :
    Separate batches := by
  have hcut := Partition.cut_of_batches h
  have hdisjoint := List.pairwise_iff_getElem.1 (hcut.disjoint hnodup)
  intro i j a b ha hb hsame
  obtain ⟨hi, rfl⟩ := List.getElem?_eq_some_iff.1 ha
  obtain ⟨hj, rfl⟩ := List.getElem?_eq_some_iff.1 hb
  obtain ⟨repository, hmem⟩ := List.exists_mem_of_ne_nil _ (hcut.ne_nil _ (List.getElem_mem hi))
  simp only [sameRepositories, Bool.and_eq_true, List.all_eq_true, List.contains_iff_mem] at hsame
  have hmem' := hsame.1.2 repository hmem
  rcases Nat.lt_trichotomy i j with hlt | heq | hlt
  · exact absurd hmem' (hdisjoint i j hi hj hlt hmem)
  · exact heq
  · exact absurd hmem (hdisjoint j i hj hi hlt hmem')

/-- Lists without repetition hold the same repositories if one is a permutation of the other. -/
theorem sameRepositories_iff_perm {a b : List String} (ha : a.Nodup) (hb : b.Nodup) :
    sameRepositories a b ↔ a.Perm b := by
  simp only [sameRepositories, Bool.and_eq_true, beq_iff_eq, List.all_eq_true,
    List.contains_iff_mem]
  constructor
  · rintro ⟨⟨-, hsub⟩, hsub'⟩
    exact (List.perm_ext_iff_of_nodup ha hb).2 fun r => ⟨hsub r, hsub' r⟩
  · intro hperm
    exact ⟨⟨hperm.length_eq, fun r hr => hperm.subset hr⟩, fun r hr => hperm.symm.subset hr⟩

theorem isCovered_iff {index : Nat} {batch : Batch} :
    isCovered units index batch ↔ ∃ u ∈ units, u.spec.batchIndex = index ∨
      u.isLive ∧ sameRepositories u.spec.repositories batch := by
  simp [isCovered]

/-- A work unit for one of the batches covers no other one. -/
theorem isCovered_append (hsep : Separate batches) (hperm : units'.Perm (units ++ news))
    (hnews : ∀ u ∈ news, batches[u.spec.batchIndex]? = some u.spec.repositories) {index : Nat}
    {batch : Batch} (hbatch : batches[index]? = some batch) :
    isCovered units' index batch =
      (isCovered units index batch || news.any (·.spec.batchIndex == index)) := by
  rw [Bool.eq_iff_iff, Bool.or_eq_true, isCovered_iff, isCovered_iff, List.any_eq_true]
  simp only [hperm.mem_iff, List.mem_append, or_and_right, exists_or, beq_iff_eq]
  refine or_congr_right ⟨?_, fun ⟨u, hu, hindex⟩ => ⟨u, hu, .inl hindex⟩⟩
  rintro ⟨u, hu, hindex | ⟨-, hsame⟩⟩
  · exact ⟨u, hu, hindex⟩
  · exact ⟨u, hu, hsep _ _ _ _ (hnews u hu) hbatch hsame⟩

/-! ## The rest of a plan -/

/-- If what is not wanted is among the first items, as many are to be taken less. -/
theorem take_filter_not {α : Type} (p : α → Bool) (quota : Nat) (items : List α)
    (h : ∀ a ∈ items.drop quota, p a = false) :
    (items.filter (!p ·)).take (quota - items.countP p) = (items.take quota).filter (!p ·) := by
  have hcount : items.countP p = (items.take quota).countP p := by
    have hdrop : (items.drop quota).countP p = 0 :=
      List.countP_eq_zero.2 fun a ha => by simp [h a ha]
    conv_lhs => rw [← List.take_append_drop quota items, List.countP_append, hdrop, Nat.add_zero]
  have hlength : ((items.take quota).filter (!p ·)).length =
      (items.take quota).length - items.countP p := by
    have := List.length_eq_countP_add_countP p (l := items.take quota)
    rw [← List.countP_eq_length_filter, hcount]
    simp only [Bool.not_eq_true, Bool.decide_eq_false] at this
    omega
  conv_lhs => rw [← List.take_append_drop quota items, List.filter_append]
  rw [List.take_append_drop]
  rcases Nat.le_total quota items.length with hle | hle
  · rw [List.take_append_of_le_length, List.take_of_length_le]
    all_goals rw [hlength, List.length_take, Nat.min_eq_left hle]
  · rw [List.drop_eq_nil_of_le hle, List.filter_nil, List.append_nil, List.take_of_length_le]
    rw [hlength, List.length_take]
    omega

theorem liveCount_append (hperm : units'.Perm (units ++ news)) (hlive : ∀ u ∈ news, u.isLive) :
    liveCount units' = liveCount units + news.length := by
  rw [liveCount, hperm.countP_eq, List.countP_append, List.countP_eq_length.2 hlive]
  rfl

/-- Where work units for some of the selected batches have been added, the other ones are
selected. -/
theorem selected_append (hsep : Separate batches) (hperm : units'.Perm (units ++ news))
    (hlive : ∀ u ∈ news, u.isLive)
    (hnews : ∀ u ∈ news, (u.spec.batchIndex, u.spec.repositories) ∈ selected units batches ceiling)
    (hnodup : (news.map (·.spec.batchIndex)).Nodup) :
    selected units' batches ceiling =
      (selected units batches ceiling).filter fun e => !news.any (·.spec.batchIndex == e.1) := by
  have hmem : ∀ u ∈ news, (u.spec.batchIndex, u.spec.repositories) ∈ uncovered units 0 batches :=
    fun u hu => List.mem_of_mem_take (hnews u hu)
  have huncovered : uncovered units' 0 batches = (uncovered units 0 batches).filter
      fun e => !news.any (·.spec.batchIndex == e.1) := by
    rw [uncovered_eq_filter, uncovered_eq_filter, List.filter_filter]
    refine List.filter_congr fun e he => ?_
    rw [isCovered_append hsep hperm (fun u hu => (mem_uncovered_iff.1 (hmem u hu)).1)
      (mem_indexed_iff.1 he), Bool.not_or, Bool.and_comm]
  have hcount : (uncovered units 0 batches).countP (fun e => news.any (·.spec.batchIndex == e.1)) =
      news.length := by
    have hindices : ((uncovered units 0 batches).map Prod.fst).filter
        (fun i => news.any (·.spec.batchIndex == i)) |>.Perm (news.map (·.spec.batchIndex)) := by
      refine (List.perm_ext_iff_of_nodup ((nodup_uncovered units batches).filter _) hnodup).2
        fun i => ?_
      simp only [List.mem_filter, List.any_eq_true, beq_iff_eq, List.mem_map]
      refine ⟨fun ⟨_, u, hu, heq⟩ => ⟨u, hu, heq⟩, ?_⟩
      rintro ⟨u, hu, rfl⟩
      exact ⟨⟨_, hmem u hu, rfl⟩, u, hu, rfl⟩
    have hlength := hindices.length_eq
    rw [← List.countP_eq_length_filter, List.countP_map, List.length_map] at hlength
    exact hlength
  -- what is added is among the batches that are taken
  have hdrop : ∀ e ∈ (uncovered units 0 batches).drop (quota (liveCount units) ceiling),
      news.any (·.spec.batchIndex == e.1) = false := by
    intro e he
    rw [List.any_eq_false]
    intro u hu hindex
    have hsplit := nodup_uncovered units batches
    rw [← List.take_append_drop (quota (liveCount units) ceiling) (uncovered units 0 batches),
      List.map_append] at hsplit
    refine (List.nodup_append.1 hsplit).2.2 _ (List.mem_map_of_mem (hnews u hu)) _
      (List.mem_map_of_mem he) (beq_iff_eq.1 hindex)
  have hquota : quota (liveCount units') ceiling = quota (liveCount units) ceiling -
      (uncovered units 0 batches).countP (fun e => news.any (·.spec.batchIndex == e.1)) := by
    rw [hcount, liveCount_append hperm hlive]
    exact Nat.sub_add_eq ..
  rw [selected, huncovered, hquota]
  exact take_filter_not _ _ _ hdrop

/-! ## Planned work units -/

/-- Work units of a campaign with the same name are for the same batch. -/
theorem index_of_key_eq {i j : Nat} {a b : Batch} {now now' : Instant}
    (h : (workUnit campaign i a now).key = (workUnit campaign j b now').key) : i = j :=
  Naming.workUnit_index_inj (congrArg Key.name h)

/-- The plan of a campaign that is not suspended. -/
theorem plan_of_not_suspended (h : campaign.spec.suspended = false) (units : List WorkUnit)
    (batches : List Batch) (now : Instant) :
    plan campaign units batches now =
      { create := (selected units batches campaign.spec.policy.parallelism).map
          fun e => workUnit campaign e.1 e.2 now
        running := liveCount units
        pending := (uncovered units 0 batches).length } := by
  simp [plan, h]

/-- Each batch in front of a planned one is covered, or its work unit is planned before. -/
theorem covered_or_planned {front rest : List WorkUnit} {u : WorkUnit}
    (h : (plan campaign units batches now).create = front ++ u :: rest) {index : Nat}
    {batch : Batch} (hlt : index < u.spec.batchIndex) (hbatch : batches[index]? = some batch) :
    isCovered units index batch ∨ workUnit campaign index batch now ∈ front := by
  unfold plan at h
  split at h
  · cases front <;> cases h
  · obtain ⟨before, after, hselected, rfl, hafter⟩ := List.map_eq_append_iff.1 h
    obtain ⟨e, others, rfl, rfl, -⟩ := List.map_eq_cons_iff.1 hafter
    have hlt : index < e.1 := hlt
    obtain ⟨later, hsplit⟩ : before ++ e :: others <+: uncovered units 0 batches :=
      hselected ▸ List.take_prefix ..
    have hascending := List.pairwise_map.1 (uncovered_ascending units batches)
    rw [← hsplit, List.append_assoc, List.pairwise_append, List.cons_append,
      List.pairwise_cons] at hascending
    rw [or_iff_not_imp_left]
    intro hcovered
    have hmem : (index, batch) ∈ uncovered units 0 batches := by
      exact mem_uncovered_iff.2 ⟨hbatch, Bool.not_eq_true _ ▸ hcovered⟩
    rw [← hsplit, List.append_assoc, List.mem_append, List.cons_append, List.mem_cons] at hmem
    rcases hmem with hbefore | rfl | hafter
    · exact List.mem_map.2 ⟨_, hbefore, rfl⟩
    · exact absurd hlt (Nat.lt_irrefl index)
    · exact absurd hlt (Nat.lt_asymm (hascending.2.1.1 _ hafter))

/-- The planned work units have different keys. -/
theorem nodup_create (campaign : Campaign) (units : List WorkUnit) (batches : List Batch)
    (now : Instant) : ((plan campaign units batches now).create.map WorkUnit.key).Nodup := by
  unfold plan
  split
  · exact List.nodup_nil
  · have hnodup := nodup_selected units batches campaign.spec.policy.parallelism
    rw [List.map_map]
    rw [List.nodup_map_iff_inj_on ((List.Nodup.of_map _ hnodup))]
    intro e he e' he' heq
    exact List.inj_on_of_nodup_map hnodup he he' (index_of_key_eq heq)

theorem nodup_create_index (campaign : Campaign) (units : List WorkUnit) (batches : List Batch)
    (now : Instant) :
    ((plan campaign units batches now).create.map (·.spec.batchIndex)).Nodup := by
  unfold plan
  split
  · exact List.nodup_nil
  · rw [List.map_map]
    exact nodup_selected units batches campaign.spec.policy.parallelism

end Admission
end CampaignControl
