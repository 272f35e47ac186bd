import CampaignControl.Key
import CampaignControl.Keyed
import Mathlib.Data.String.Basic
import Mathlib.Order.Defs.Unbundled

/-!
# Keyed lists in ascending order

What `insert`, `erase` and `adjust` do to the order of a keyed list (`Ascending.insert` and its
like), to its members, and to the number of entries with a property. In a list in ascending
order the entries are what `find?` finds (`Ascending.mem_iff`), so a fact about every entry and
a fact about everything that is found are the same. The slots of a store are strictly and totally
ordered.
-/

namespace CampaignControl
namespace Keyed

universe u v

variable {κ : Type u} {ν : Type v} [DecidableEq κ]

@[simp] theorem find?_cons_self (key : κ) (value : ν) (rest : List (κ × ν)) :
    find? key ((key, value) :: rest) = some value := if_pos rfl

@[simp] theorem find?_cons_of_ne {key k : κ} (h : k ≠ key) (value : ν) (rest : List (κ × ν)) :
    find? key ((k, value) :: rest) = find? key rest := if_neg h

section members

theorem mem_of_mem_erase {key : κ} {e : κ × ν} {entries : List (κ × ν)}
    (h : e ∈ erase key entries) : e ∈ entries := by
  induction entries with
  | nil => exact h
  | cons head rest ih =>
    obtain ⟨k, v⟩ := head
    simp only [erase] at h
    split at h
    · exact List.mem_cons_of_mem _ (ih h)
    · rcases List.mem_cons.1 h with rfl | h
      · exact List.mem_cons_self
      · exact List.mem_cons_of_mem _ (ih h)

theorem mem_insert [LT κ] [DecidableLT κ] {key : κ} {value : ν} {e : κ × ν}
    {entries : List (κ × ν)} (h : e ∈ insert key value entries) :
    e = (key, value) ∨ e ∈ entries := by
  induction entries with
  | nil => exact .inl (List.mem_singleton.1 h)
  | cons head rest ih =>
    obtain ⟨k, v⟩ := head
    simp only [insert] at h
    split at h
    · exact (List.mem_cons.1 h).imp_right (List.mem_cons_of_mem _)
    · split at h
      · exact List.mem_cons.1 h
      · rcases List.mem_cons.1 h with rfl | h
        · exact .inr List.mem_cons_self
        · exact (ih h).imp_right (List.mem_cons_of_mem _)

theorem erase_of_find?_none {key : κ} {entries : List (κ × ν)}
    (h : find? key entries = none) : erase key entries = entries := by
  induction entries with
  | nil => rfl
  | cons head rest ih =>
    obtain ⟨k, v⟩ := head
    simp only [find?] at h
    split at h
    · cases h
    · rw [erase, if_neg ‹_›, ih h]

theorem find?_append (key : κ) (front back : List (κ × ν)) :
    find? key (front ++ back) = (find? key front).or (find? key back) := by
  induction front with
  | nil => simp
  | cons head rest ih =>
    obtain ⟨k, v⟩ := head
    simp only [List.cons_append, find?]
    split
    · rfl
    · exact ih

theorem contains_iff {key : κ} {entries : List (κ × ν)} :
    contains key entries ↔ key ∈ entries.map Prod.fst := by
  induction entries with
  | nil => simp [contains]
  | cons head rest ih =>
    obtain ⟨k, v⟩ := head
    simp only [contains] at ih ⊢
    rw [find?, List.map_cons, List.mem_cons, ← ih]
    split
    · next heq => simp [heq]
    · next hne => simp [Ne.symm hne]

theorem erase_insert [LT κ] [DecidableLT κ] (key : κ) (value : ν) (entries : List (κ × ν)) :
    erase key (insert key value entries) = erase key entries := by
  induction entries with
  | nil => simp [insert, erase]
  | cons head rest ih =>
    obtain ⟨k, v⟩ := head
    simp only [insert]
    split
    · next heq => simp [erase, heq]
    · split
      · simp [erase]
      · simp only [erase, ih]

/-- A new key adds an entry. -/
theorem insert_perm [LT κ] [DecidableLT κ] {key : κ} (value : ν) {entries : List (κ × ν)}
    (h : find? key entries = none) : (insert key value entries).Perm ((key, value) :: entries) := by
  induction entries with
  | nil => exact .refl _
  | cons head rest ih =>
    obtain ⟨k, v⟩ := head
    simp only [find?] at h
    split at h
    · cases h
    · next hne =>
      simp only [insert, if_neg (Ne.symm hne)]
      split
      · exact .refl _
      · exact ((ih h).cons _).trans (.swap ..)

/-- The entries with a property stay the same if neither the new entry nor the one that it replaces
has it. -/
theorem filter_insert [LT κ] [DecidableLT κ] {p : κ × ν → Bool} {key : κ} {value : ν}
    {entries : List (κ × ν)} (hnew : p (key, value) = false)
    (hold : ∀ old, find? key entries = some old → p (key, old) = false) :
    (insert key value entries).filter p = entries.filter p := by
  induction entries with
  | nil => simp [insert, hnew]
  | cons head rest ih =>
    obtain ⟨k, v⟩ := head
    simp only [insert]
    split
    · next heq =>
      subst heq
      simp [hnew, hold v (find?_cons_self ..)]
    · next hne =>
      split
      · simp [List.filter_cons, hnew]
      · rw [List.filter_cons, List.filter_cons,
          ih fun old h => hold old ((find?_cons_of_ne (Ne.symm hne) ..).trans h)]

theorem map_fst_adjust (key : κ) (f : ν → ν) (entries : List (κ × ν)) :
    (adjust key f entries).map Prod.fst = entries.map Prod.fst := by
  induction entries with
  | nil => rfl
  | cons head rest ih =>
    obtain ⟨k, v⟩ := head
    simp only [adjust]
    split <;> simp [ih]

end members

/-! ## Order -/

namespace Ascending

variable [LT κ] {entries : List (κ × ν)}

theorem erase (h : Ascending entries) (key : κ) : Ascending (erase key entries) := by
  induction entries with
  | nil => exact h
  | cons head rest ih =>
    obtain ⟨k, v⟩ := head
    obtain ⟨hk, hrest⟩ := List.pairwise_cons.1 h
    simp only [Keyed.erase]
    split
    · exact ih hrest
    · exact List.pairwise_cons.2 ⟨fun e he => hk e (mem_of_mem_erase he), ih hrest⟩

omit [DecidableEq κ] in
theorem iff_map_fst : Ascending entries ↔ (entries.map Prod.fst).Pairwise (· < ·) :=
  List.pairwise_map.symm

theorem adjust (h : Ascending entries) (key : κ) (f : ν → ν) :
    Ascending (adjust key f entries) := by
  rw [iff_map_fst, map_fst_adjust]
  exact iff_map_fst.1 h

variable [DecidableLT κ] [IsStrictTotalOrder κ (· < ·)]

theorem insert (h : Ascending entries) (key : κ) (value : ν) :
    Ascending (insert key value entries) := by
  induction entries with
  | nil => exact List.pairwise_singleton _ _
  | cons head rest ih =>
    obtain ⟨k, v⟩ := head
    obtain ⟨hk, hrest⟩ := List.pairwise_cons.1 h
    simp only [Keyed.insert]
    split
    · next heq => subst heq; exact List.pairwise_cons.2 ⟨hk, hrest⟩
    · next hne =>
      split
      · next hlt =>
        refine List.pairwise_cons.2 ⟨fun e he => ?_, h⟩
        rcases List.mem_cons.1 he with rfl | he
        · exact hlt
        · exact trans_of (· < ·) hlt (hk e he)
      · next hge =>
        have hlt : k < key := by
          rcases trichotomous_of (· < ·) key k with hlt | heq | hlt
          · exact absurd hlt hge
          · exact absurd heq hne
          · exact hlt
        refine List.pairwise_cons.2 ⟨fun e he => ?_, ih hrest⟩
        rcases mem_insert he with rfl | he
        · exact hlt
        · exact hk e he

omit [DecidableLT κ] in
/-- In ascending order, the entries are what is found. -/
theorem mem_iff (h : Ascending entries) {key : κ} {value : ν} :
    (key, value) ∈ entries ↔ find? key entries = some value := by
  refine ⟨fun hm => ?_, mem_of_find?⟩
  induction entries with
  | nil => cases hm
  | cons head rest ih =>
    obtain ⟨k, v⟩ := head
    obtain ⟨hk, hrest⟩ := List.pairwise_cons.1 h
    rcases List.mem_cons.1 hm with heq | hm
    · cases heq; exact find?_cons_self ..
    · have hne : k ≠ key := fun heq => irrefl (r := (· < ·)) key (heq ▸ hk _ hm)
      rw [find?_cons_of_ne hne]
      exact ih hrest hm

end Ascending

/-! ## Counting -/

section counting

variable (p : κ × ν → Bool) {key : κ} {entries : List (κ × ν)}

theorem countP_erase_le (key : κ) (entries : List (κ × ν)) :
    (erase key entries).countP p ≤ entries.countP p := by
  induction entries with
  | nil => exact Nat.le_refl _
  | cons head rest ih =>
    obtain ⟨k, v⟩ := head
    simp only [erase]
    split <;> simp only [List.countP_cons] <;> omega

theorem countP_adjust_le {f : ν → ν} (h : ∀ v, p (key, f v) → p (key, v)) :
    (adjust key f entries).countP p ≤ entries.countP p := by
  induction entries with
  | nil => exact Nat.le_refl _
  | cons head rest ih =>
    obtain ⟨k, v⟩ := head
    simp only [adjust]
    split
    · next heq =>
      subst heq
      have := h v
      simp only [List.countP_cons]
      split <;> split <;> simp_all
    · simp only [List.countP_cons]
      omega

variable [LT κ] [DecidableLT κ]

theorem countP_insert_le_succ (key : κ) (value : ν) (entries : List (κ × ν)) :
    (insert key value entries).countP p ≤ entries.countP p + 1 := by
  have hone : (if p (key, value) then 1 else 0) ≤ 1 := by split <;> omega
  induction entries with
  | nil => simpa only [insert, List.countP_cons, List.countP_nil] using by omega
  | cons head rest ih =>
    obtain ⟨k, v⟩ := head
    simp only [insert]
    split
    · simp only [List.countP_cons]; omega
    · split <;> simp only [List.countP_cons] <;> omega

theorem countP_insert_le_of_not {value : ν} (h : p (key, value) = false) :
    (insert key value entries).countP p ≤ entries.countP p := by
  induction entries with
  | nil => simp [insert, h]
  | cons head rest ih =>
    obtain ⟨k, v⟩ := head
    simp only [insert]
    split
    · simp [List.countP_cons, h]
    · split
      · simp [List.countP_cons, h]
      · simp only [List.countP_cons]; omega

/-- The entry of a key is replaced, so that the number does not grow if the old entry was
counted, or else the new one is not. -/
theorem Ascending.countP_insert_le [IsStrictTotalOrder κ (· < ·)] (hasc : Ascending entries)
    {old new : ν} (hold : find? key entries = some old) (h : p (key, new) → p (key, old)) :
    (Keyed.insert key new entries).countP p ≤ entries.countP p := by
  induction entries with
  | nil => cases hold
  | cons head rest ih =>
    obtain ⟨k, v⟩ := head
    obtain ⟨hk, hrest⟩ := List.pairwise_cons.1 hasc
    simp only [Keyed.insert]
    split
    · next heq =>
      subst heq
      rw [find?_cons_self] at hold
      cases hold
      simp only [List.countP_cons]
      split <;> split <;> simp_all
    · next hne =>
      rw [find?_cons_of_ne (Ne.symm hne)] at hold
      have hlt : k < key := hk _ (mem_of_find? hold)
      rw [if_neg fun hlt' => irrefl (r := (· < ·)) key (trans_of (· < ·) hlt' hlt)]
      simp only [List.countP_cons]
      have := ih hrest hold
      omega

end counting
end Keyed

/-! ## The order of slots -/

theorem Kind.name_inj {a b : Kind} (h : a.name = b.name) : a = b := by
  cases a <;> cases b <;> first | rfl | (exact absurd h (by decide))

instance : IsStrictTotalOrder Key (· < ·) where
  irrefl a h := by
    rcases h with h | ⟨-, h⟩
    · exact lt_irrefl _ h
    · exact lt_irrefl _ h
  trans a b c hab hbc := by
    rcases hab with hab | ⟨hs, hab⟩ <;> rcases hbc with hbc | ⟨hs', hbc⟩
    · exact .inl (hab.trans hbc)
    · exact .inl (hs' ▸ hab)
    · exact .inl (hs ▸ hbc)
    · exact .inr ⟨hs.trans hs', hab.trans hbc⟩
  trichotomous a b hab hba := by
    obtain ⟨sa, na⟩ := a
    obtain ⟨sb, nb⟩ := b
    rcases lt_trichotomy sa sb with h | rfl | h
    · exact absurd (.inl h) hab
    · rcases lt_trichotomy na nb with h | rfl | h
      · exact absurd (.inr ⟨rfl, h⟩) hab
      · rfl
      · exact absurd (.inr ⟨rfl, h⟩) hba
    · exact absurd (.inl h) hba

instance : IsStrictTotalOrder Slot (· < ·) where
  irrefl a h := by
    rcases h with h | ⟨-, h⟩
    · exact lt_irrefl a.kind.name h
    · exact irrefl (r := (· < ·)) _ h
  trans a b c hab hbc := by
    rcases hab with hab | ⟨hs, hab⟩ <;> rcases hbc with hbc | ⟨hs', hbc⟩
    · exact .inl (String.lt_trans hab hbc)
    · exact .inl (hs' ▸ hab)
    · exact .inl (hs ▸ hbc)
    · exact .inr ⟨hs.trans hs', trans_of (· < ·) hab hbc⟩
  trichotomous a b hab hba := by
    obtain ⟨ka, a⟩ := a
    obtain ⟨kb, b⟩ := b
    rcases lt_trichotomy ka.name kb.name with h | h | h
    · exact absurd (.inl h) hab
    · cases Kind.name_inj h
      rcases trichotomous_of (fun a b : Key => a < b) a b with h | rfl | h
      · exact absurd (.inr ⟨rfl, h⟩) hab
      · rfl
      · exact absurd (.inr ⟨rfl, h⟩) hba
    · exact absurd (.inl h) hba

end CampaignControl
