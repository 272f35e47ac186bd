import CampaignControl.Condition
import Mathlib.Data.List.Nodup

/-!
# Lists of conditions

In a list of conditions with distinct types, what holds of a type is told by the one condition of
that type (`Condition.Holds`). Setting a condition keeps the types distinct and changes what
holds of its own type only.
-/

namespace CampaignControl
namespace Condition

variable {type : String} {conditions : List Condition}

/-- No two conditions are of the same type. -/
def Distinct (conditions : List Condition) : Prop := (conditions.map (·.type)).Nodup

/-- A condition of this type holds. -/
def Holds (type : String) (conditions : List Condition) : Prop :=
  ∃ c ∈ conditions, c.type = type ∧ c.status = .holds

instance : Decidable (Distinct conditions) := inferInstanceAs (Decidable (List.Nodup _))

instance : Decidable (Holds type conditions) :=
  inferInstanceAs (Decidable (∃ c ∈ conditions, c.type = type ∧ c.status = .holds))

theorem revise_type {old new : Condition} (h : old.type = new.type) :
    (old.revise new).type = new.type := by
  unfold revise
  split
  · split
    · exact h
    · rfl
  · rfl

@[simp] theorem revise_status (old new : Condition) : (old.revise new).status = new.status := by
  unfold revise
  split
  · next heq =>
    split
    · exact heq
    · rfl
  · rfl

/-- A condition that has been revised says what it is revised to, whenever it is revised again. -/
theorem revise_revise_at (old new : Condition) (since : Instant) :
    (old.revise new).revise { new with since } = old.revise new := by
  have hself : ∀ before, ({ new with since := before } : Condition).revise { new with since } =
      { new with since := before } := by
    intro before
    simp [revise]
  by_cases hstatus : old.status = new.status
  · by_cases hsame : old.reason = new.reason ∧ old.message = new.message
    · have h : ∀ since, old.revise { new with since } = old := by
        intro since
        rw [revise, if_pos hstatus, if_pos hsame]
      rw [h new.since, h]
    · have h : old.revise new = { new with since := old.since } := by
        rw [revise, if_pos hstatus, if_neg hsame]
      rw [h, hself]
  · have h : old.revise new = new := by rw [revise, if_neg hstatus]
    rw [h]
    exact hself new.since

/-- A condition that is set again, whenever that is, stays as it is. -/
theorem set_set_at (new : Condition) (since : Instant) (conditions : List Condition) :
    ({ new with since } : Condition).set (new.set conditions) = new.set conditions := by
  induction conditions with
  | nil => simp [set, revise]
  | cons c rest ih =>
    simp only [set]
    split
    · next h => rw [set, if_pos (revise_type h), revise_revise_at]
    · next h => rw [set, if_neg h, ih]

theorem set_set (new : Condition) (conditions : List Condition) :
    new.set (new.set conditions) = new.set conditions :=
  set_set_at new new.since conditions

/-- A condition leaves those of other types where they are. -/
theorem set_append {new : Condition} (h : new.type ∉ conditions.map (·.type))
    (rest : List Condition) : new.set (conditions ++ rest) = conditions ++ new.set rest := by
  induction conditions with
  | nil => rfl
  | cons c front ih =>
    rw [List.map_cons, List.mem_cons, not_or] at h
    obtain ⟨hne, hnot⟩ := h
    rw [List.cons_append, set, if_neg (Ne.symm hne), ih hnot, List.cons_append]

/-- What is not news changes nothing. -/
theorem set_of_not_isNews {new : Condition} (h : new.isNews conditions = false) :
    new.set conditions = conditions := by
  induction conditions with
  | nil => cases h
  | cons c rest ih =>
    unfold isNews find? at h
    rw [List.find?_cons] at h
    simp only [set]
    split
    · next htype =>
      simp only [htype, beq_self_eq_true, Bool.or_eq_false_iff, bne_eq_false_iff_eq] at h
      rw [revise, if_pos h.1.1, if_pos ⟨h.1.2, h.2⟩]
    · next htype =>
      rw [beq_eq_false_iff_ne.2 htype] at h
      rw [ih h]

/-- Two conditions say the same, perhaps since different times. -/
structure Agrees (c c' : Condition) : Prop where
  type : c.type = c'.type
  status : c.status = c'.status
  reason : c.reason = c'.reason
  message : c.message = c'.message

theorem revise_agrees {old new : Condition} (h : old.type = new.type) :
    (old.revise new).Agrees new := by
  unfold revise
  split
  · next hstatus =>
    split
    · next hsame => exact ⟨h, hstatus, hsame.1, hsame.2⟩
    · exact ⟨rfl, rfl, rfl, rfl⟩
  · exact ⟨rfl, rfl, rfl, rfl⟩

/-- What has been set is found. -/
theorem find?_set (new : Condition) (conditions : List Condition) :
    ∃ c, find? new.type (new.set conditions) = some c ∧ c.Agrees new := by
  unfold find?
  induction conditions with
  | nil => exact ⟨new, by simp [set], rfl, rfl, rfl, rfl⟩
  | cons c rest ih =>
    unfold set
    split
    · next h =>
      refine ⟨c.revise new, List.find?_cons_of_pos ?_, revise_agrees h⟩
      rw [revise_type h]
      exact beq_self_eq_true _
    · next h =>
      rw [List.find?_cons_of_neg (by simpa using h)]
      exact ih

/-- What has been set is no news, whenever it is set again. -/
theorem not_isNews_set_at (new : Condition) (since : Instant) (conditions : List Condition) :
    ({ new with since } : Condition).isNews (new.set conditions) = false := by
  obtain ⟨c, hfind, -, hstatus, hreason, hmessage⟩ := find?_set new conditions
  simp [isNews, hfind, hstatus, hreason, hmessage]

/-- Conditions of other types stay as they are. -/
theorem filter_set (new : Condition) (conditions : List Condition) :
    (new.set conditions).filter (·.type ≠ new.type) =
      conditions.filter (·.type ≠ new.type) := by
  induction conditions with
  | nil => simp [set]
  | cons c rest ih =>
    unfold set
    split
    · next h => simp [revise_type h, h]
    · next h => rw [List.filter_cons, List.filter_cons, ih]

/-- A condition without the time since when it has been so, if it is of this type. -/
def undated (type : String) (c : Condition) : Condition :=
  if c.type = type then { c with since := .epoch } else c

theorem Agrees.undated_eq {c c' : Condition} (h : c.Agrees c') :
    c.undated c'.type = c'.undated c'.type := by
  obtain ⟨htype, hstatus, hreason, hmessage⟩ := h
  rw [undated, undated, if_pos htype, if_pos rfl, htype, hstatus, hreason, hmessage]

/-- What has been set before can be told from the time at most. -/
theorem map_undated_set_set {old new : Condition} (h : old.type = new.type)
    (conditions : List Condition) :
    (new.set (old.set conditions)).map (undated new.type) =
      (new.set conditions).map (undated new.type) := by
  induction conditions with
  | nil => simp only [set, if_pos h, List.map_cons, List.map_nil, (revise_agrees h).undated_eq]
  | cons c rest ih =>
    by_cases hc : c.type = new.type
    · have hrevised : (c.revise old).type = new.type := (revise_type (hc.trans h.symm)).trans h
      simp only [set, if_pos hc, if_pos (hc.trans h.symm), if_pos hrevised, List.map_cons,
        (revise_agrees hc).undated_eq, (revise_agrees hrevised).undated_eq]
    · have hold : c.type ≠ old.type := fun heq => hc (heq.trans h)
      simp only [set, if_neg hc, if_neg hold, List.map_cons, ih]

theorem holds_cons {c : Condition} :
    Holds type (c :: conditions) ↔ (c.type = type ∧ c.status = .holds) ∨ Holds type conditions := by
  simp [Holds]

theorem mem_types_set (new : Condition) :
    type ∈ (new.set conditions).map (·.type) ↔
      type = new.type ∨ type ∈ conditions.map (·.type) := by
  induction conditions with
  | nil => simp [set]
  | cons c rest ih =>
    unfold set
    split
    · next h => simp [revise_type h, h]
    · simp only [List.map_cons, List.mem_cons, ih]
      exact or_left_comm

/-- Types stay distinct. -/
theorem Distinct.set (h : Distinct conditions) (new : Condition) :
    Distinct (new.set conditions) := by
  induction conditions with
  | nil => exact List.nodup_singleton _
  | cons c rest ih =>
    obtain ⟨hnot, hrest⟩ := List.nodup_cons.1 h
    unfold Condition.set
    split
    · next heq =>
      refine List.nodup_cons.2 ⟨?_, hrest⟩
      show (c.revise new).type ∉ _
      rw [revise_type heq, ← heq]
      exact hnot
    · next hne =>
      refine List.nodup_cons.2 ⟨fun hmem => ?_, ih hrest⟩
      rcases (mem_types_set new).1 hmem with heq | hmem
      · exact hne heq
      · exact hnot hmem

/-- What holds of a type after a condition has been set. -/
theorem Distinct.holds_set (h : Distinct conditions) (new : Condition) :
    Holds type (new.set conditions) ↔
      if type = new.type then new.status = .holds else Holds type conditions := by
  induction conditions with
  | nil =>
    split
    · next heq => simp [Condition.set, Holds, heq]
    · next hne => simp [Condition.set, Holds, Ne.symm hne]
  | cons c rest ih =>
    obtain ⟨hnot, hrest⟩ := List.nodup_cons.1 h
    unfold Condition.set
    split
    · next heq =>
      -- there is no other condition of the type
      have hother : ¬ Holds new.type rest := by
        rintro ⟨other, hmem, htype, -⟩
        exact hnot (List.mem_map.2 ⟨other, hmem, htype.trans heq.symm⟩)
      rw [holds_cons, holds_cons, revise_type heq, revise_status, heq]
      split
      · next htype => simp [htype, hother]
      · next hne => simp [Ne.symm hne]
    · next hne =>
      rw [holds_cons, holds_cons, ih hrest]
      split
      · next htype => simp [htype, hne]
      · rfl

end Condition
end CampaignControl
