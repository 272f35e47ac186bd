import CampaignControl.Uid
import Mathlib.Tactic.IntervalCases

/-!
# Reading the text of an identity

An identity of 128 bits is read back from its text (`Uid.read?_text`): its 32 hexadecimal digits
denote it whatever zeros stand in front (`Uid.ofDigits?_digits`), and the hyphens between the
groups are left out again (`Uid.ofGroups?_grouped`).
-/

namespace CampaignControl
namespace Uid

/-- The identity has no more than 128 bits. -/
def IsWide (uid : Uid) : Prop := uid.value < 16 ^ 32

/-! ## Digits -/

theorem digit?_digitChar {d : Nat} (h : d < 16) : digit? (Nat.digitChar d) = some d := by
  interval_cases d <;> decide

/-- The digits of a number are read as digits that denote it. -/
theorem exists_mapM_toDigits (n : Nat) :
    ∃ ds, (Nat.toDigits 16 n).mapM digit? = some ds ∧ ds.foldl (fun n d => 16 * n + d) 0 = n := by
  induction n using Nat.strongRecOn with
  | ind n ih =>
    by_cases hn : n < 16
    · refine ⟨[n], ?_, by simp⟩
      rw [Nat.toDigits_of_lt_base hn]
      simp [digit?_digitChar hn]
    · obtain ⟨ds, hread, hvalue⟩ := ih (n / 16) (by omega)
      refine ⟨ds ++ [n % 16], ?_, ?_⟩
      · rw [Nat.toDigits_of_base_le (by decide) (by omega), List.mapM_append, hread]
        simp [digit?_digitChar (Nat.mod_lt n (by decide : 0 < 16))]
      · rw [List.foldl_append, hvalue, List.foldl_cons, List.foldl_nil]
        omega

theorem length_digits {uid : Uid} (h : uid.IsWide) : uid.digits.length = 32 := by
  have := (Nat.length_toDigits_le_iff (b := 16) (n := uid.value) (by decide) (by decide)).2 h
  simp only [digits, List.length_append, List.length_replicate]
  omega

theorem exists_mapM_digits (uid : Uid) :
    ∃ ds, uid.digits.mapM digit? = some ds ∧
      ds.foldl (fun n d => 16 * n + d) 0 = uid.value := by
  obtain ⟨ds, hread, hvalue⟩ := exists_mapM_toDigits uid.value
  have hzeros : ∀ k, (List.replicate k '0').mapM digit? = some (List.replicate k 0) := by
    intro k
    induction k with
    | zero => rfl
    | succ k ih =>
      rw [List.replicate_succ, List.mapM_cons, ih]
      rfl
  have hsum : ∀ k, (List.replicate k 0).foldl (fun n d => 16 * n + d) 0 = 0 := by
    intro k
    induction k with
    | zero => rfl
    | succ k ih => rw [List.replicate_succ, List.foldl_cons, ih]
  refine ⟨List.replicate (32 - (Nat.toDigits 16 uid.value).length) 0 ++ ds, ?_, ?_⟩
  · rw [digits, List.mapM_append, hzeros, hread]
    rfl
  · rw [List.foldl_append, hsum, hvalue]

theorem ofDigits?_digits {uid : Uid} (h : uid.IsWide) : ofDigits? uid.digits = some uid := by
  obtain ⟨ds, hread, hvalue⟩ := exists_mapM_digits uid
  rw [ofDigits?, if_pos (length_digits h), hread, Option.map_some, hvalue]

/-- No digit is a hyphen or the start of another form. -/
theorem ne_of_mem_digits {uid : Uid} {c : Char} (h : c ∈ uid.digits) :
    c ≠ '-' ∧ c ≠ '\x7b' ∧ c ≠ 'u' := by
  have hread : ∃ d, digit? c = some d := by
    obtain ⟨ds, hread, -⟩ := exists_mapM_digits uid
    generalize uid.digits = cs at h hread
    induction cs generalizing ds with
    | nil => cases h
    | cons x cs ih =>
      rw [List.mapM_cons, Option.bind_eq_bind, Option.bind_eq_some_iff] at hread
      obtain ⟨d, hd, hread⟩ := hread
      obtain ⟨rest, hrest, -⟩ := Option.bind_eq_some_iff.1 hread
      rcases List.mem_cons.1 h with rfl | h
      · exact ⟨d, hd⟩
      · exact ih rest h hrest
  obtain ⟨d, hd⟩ := hread
  refine ⟨?_, ?_, ?_⟩ <;> rintro rfl <;> cases hd

/-! ## Groups -/

/-- The hyphens between the groups of digits are left out. -/
theorem ofGroups?_grouped {a b c d e : List Char} (ha : a.length = 8) (hb : b.length = 4)
    (hc : c.length = 4) (hd : d.length = 4) (he : e.length = 12)
    (h : ∀ x ∈ a ++ b ++ c ++ d ++ e, x ≠ '-') :
    ofGroups? (a ++ '-' :: b ++ '-' :: c ++ '-' :: d ++ '-' :: e) =
      ofDigits? (a ++ b ++ c ++ d ++ e) := by
  have hhyphens : [8, 13, 18, 23].all
      (fun i => (a ++ '-' :: b ++ '-' :: c ++ '-' :: d ++ '-' :: e)[i]? = some '-') := by
    simp [List.getElem?_append, List.getElem?_cons, ha, hb, hc, hd]
  have hfilter : (a ++ '-' :: b ++ '-' :: c ++ '-' :: d ++ '-' :: e).filter (· ≠ '-') =
      a ++ b ++ c ++ d ++ e := by
    rw [← List.filter_eq_self.2 fun x hx => decide_eq_true (h x hx)]
    simp [List.filter_append]
  rw [ofGroups?, if_pos ⟨by simp [ha, hb, hc, hd, he], hhyphens⟩, hfilter]

theorem groups_eq (ds : List Char) :
    ds.take 8 ++ (ds.drop 8).take 4 ++ (ds.drop 12).take 4 ++ (ds.drop 16).take 4 ++ ds.drop 20 =
      ds := by
  have next : ∀ i, (ds.drop i).take 4 ++ ds.drop (i + 4) = ds.drop i := fun i => by
    rw [← List.drop_drop, List.take_append_drop]
  rw [List.append_assoc, next, List.append_assoc, next, List.append_assoc, next,
    List.take_append_drop]

/-- **Every identity of 128 bits is read back from its text.** -/
theorem read?_text {uid : Uid} (h : uid.IsWide) : read? uid.text = some uid := by
  have hlength := length_digits h
  have htext : uid.text.toList = uid.digits.take 8 ++ '-' :: (uid.digits.drop 8).take 4 ++
      '-' :: (uid.digits.drop 12).take 4 ++ '-' :: (uid.digits.drop 16).take 4 ++
      '-' :: uid.digits.drop 20 := by
    simp [text]
  have hread : ofGroups? uid.text.toList = some uid := by
    rw [htext, ofGroups?_grouped (by simp [hlength]) (by simp [hlength]) (by simp [hlength])
      (by simp [hlength]) (by simp [hlength]), groups_eq, ofDigits?_digits h]
    intro x hx
    rw [groups_eq] at hx
    exact (ne_of_mem_digits hx).1
  obtain ⟨c, cs, hcs⟩ : ∃ c cs, uid.digits = c :: cs :=
    List.exists_cons_of_length_pos (by omega)
  have hc := ne_of_mem_digits (show c ∈ uid.digits by simp [hcs])
  have hstart : ∃ more, uid.text.toList = c :: more := by
    rw [htext, hcs]
    exact ⟨_, rfl⟩
  obtain ⟨more, hmore⟩ := hstart
  have hlong : uid.text.toList.length ≠ 32 := by
    rw [htext]
    simp [hlength]
  unfold read?
  split
  · next heq => rw [hmore] at heq; exact absurd (List.cons.inj heq).1 hc.2.1
  · next heq => rw [hmore] at heq; exact absurd (List.cons.inj heq).1 hc.2.2
  · rw [if_neg hlong, hread]

end Uid
end CampaignControl
