import CampaignControl.Proofs.Resource.Codec
import CampaignControl.Proofs.Store.Sound
import Mathlib.Data.List.Nodup
import Mathlib.Data.List.Perm.Basic

/-!
# Listings

What is listed of a kind are the stored objects of this kind that the filter selects, each of them
once (`Store.mem_list_iff`, `Store.nodup_list`). It changes with the objects of that kind only: an
object of another kind may be created or replaced, and a new object of the kind is listed beside
those that were listed before, if the filter selects it. The same goes for what the listed objects
are decoded to.
-/

namespace CampaignControl
namespace Store

variable {s : Store} {slot : Slot} {kind : Kind} {filter : Filter} {now : Instant}

theorem mem_list_iff (hs : s.Sound) {o : Object} :
    o ∈ s.list kind filter ↔ s.find? { kind, key := o.key } = some o ∧ filter.selects o.metadata := by
  simp only [list, List.mem_map, List.mem_filter, Bool.and_eq_true, decide_eq_true_eq]
  constructor
  · rintro ⟨⟨⟨kind', key⟩, o'⟩, ⟨hmem, rfl, hselects⟩, rfl⟩
    have hfind := hs.ascending.mem_iff.1 hmem
    rw [hs.key_eq hfind]
    exact ⟨hfind, hselects⟩
  · rintro ⟨hfind, hselects⟩
    exact ⟨_, ⟨hs.ascending.mem_iff.2 hfind, rfl, hselects⟩, rfl⟩

/-- No two listed objects have the same key. -/
theorem nodup_list (hs : s.Sound) (kind : Kind) (filter : Filter) :
    ((s.list kind filter).map Object.key).Nodup := by
  have hnodup : (s.objects.map Prod.fst).Nodup :=
    List.Pairwise.imp ne_of_irrefl (Keyed.Ascending.iff_map_fst.1 hs.ascending)
  rw [list, List.map_map]
  -- of objects of one kind, the keys say which slots they are in
  apply List.Nodup.of_map (Slot.mk kind)
  rw [List.map_map, List.map_congr_left (g := Prod.fst)]
  · exact hnodup.sublist (List.filter_sublist.map _)
  · intro e he
    obtain ⟨hmem, hselected⟩ := List.mem_filter.1 he
    have hkind : e.1.kind = kind := of_decide_eq_true (Bool.and_eq_true_iff.1 hselected).1
    have hkey : e.2.key = e.1.key := hs.key_eq (hs.ascending.mem_iff.1 hmem)
    show Slot.mk kind e.2.key = e.1
    rw [hkey, ← hkind]

/-! ## Listings after edits -/

theorem list_withNew_of_kind_ne (h : slot.kind ≠ kind) (object : Object) :
    (s.withNew now slot object).list kind filter = s.list kind filter :=
  congrArg (List.map Prod.snd) (Keyed.filter_insert (by simp [h]) fun _ _ => by simp [h])

theorem list_withRevised_of_kind_ne (h : slot.kind ≠ kind) (old object : Object) :
    (s.withRevised slot old object).list kind filter = s.list kind filter :=
  congrArg (List.map Prod.snd) (Keyed.filter_insert (by simp [h]) fun _ _ => by simp [h])

/-- A new object is listed if the filter selects it. -/
theorem list_withNew (hnone : s.find? slot = none) {object : Object}
    (hselects : filter.selects (s.newborn now object).metadata) :
    ((s.withNew now slot object).list slot.kind filter).Perm
      (s.newborn now object :: s.list slot.kind filter) := by
  have hperm := (Keyed.insert_perm (s.newborn now object) hnone).filter fun e =>
    decide (e.1.kind = slot.kind) && filter.selects e.2.metadata
  rw [List.filter_cons_of_pos (by simp [hselects])] at hperm
  exact hperm.map Prod.snd

end Store

/-! ## Decoded listings -/

section decoding

variable {α : Type} {f : Object → Except StoreError α} {objects objects' : List Object}
  {items : List α}

theorem mapM_eq_ok_iff :
    objects.mapM f = .ok items ↔ List.Forall₂ (fun o a => f o = .ok a) objects items := by
  induction objects generalizing items with
  | nil => cases items <;> simp [pure, Except.pure]
  | cons o rest ih =>
    rw [List.mapM_cons]
    cases ho : f o with
    | error e => cases items <;> simp [bind, Except.bind, ho]
    | ok a =>
      cases hrest : rest.mapM f with
      | error e => cases items <;> simp [bind, Except.bind, ho, ← ih, hrest]
      | ok others => cases items <;> simp [bind, Except.bind, pure, Except.pure, ho, ← ih, hrest]

/-- Every item is what one of the objects is decoded to. -/
theorem exists_of_mem_mapM (h : objects.mapM f = .ok items) {a : α} (ha : a ∈ items) :
    ∃ o ∈ objects, f o = .ok a := by
  have hall := mapM_eq_ok_iff.1 h
  clear h
  induction hall with
  | nil => cases ha
  | @cons o b objects items ho _ ih =>
    rcases List.mem_cons.1 ha with rfl | ha
    · exact ⟨o, List.mem_cons_self, ho⟩
    · obtain ⟨o', ho', hdecode⟩ := ih ha
      exact ⟨o', List.mem_cons_of_mem _ ho', hdecode⟩

/-- Where each object can be decoded, all of them can. -/
theorem exists_mapM (h : ∀ o ∈ objects, ∃ a, f o = .ok a) :
    ∃ items, objects.mapM f = .ok items := by
  simp only [mapM_eq_ok_iff]
  induction objects with
  | nil => exact ⟨[], .nil⟩
  | cons o rest ih =>
    obtain ⟨a, ha⟩ := h o List.mem_cons_self
    obtain ⟨items, hitems⟩ := ih fun o ho => h o (List.mem_cons_of_mem _ ho)
    exact ⟨a :: items, .cons ha hitems⟩

/-- Every object is decoded to one of the items. -/
theorem exists_mem_of_mapM (h : objects.mapM f = .ok items) {o : Object} (ho : o ∈ objects) :
    ∃ a ∈ items, f o = .ok a := by
  have hall := mapM_eq_ok_iff.1 h
  clear h
  induction hall with
  | nil => cases ho
  | @cons o' b objects items hb _ ih =>
    rcases List.mem_cons.1 ho with rfl | ho
    · exact ⟨b, List.mem_cons_self, hb⟩
    · obtain ⟨a, ha, hdecode⟩ := ih ho
      exact ⟨a, List.mem_cons_of_mem _ ha, hdecode⟩

/-- What objects are decoded to has their keys. -/
theorem map_key_of_mapM [Resource α] [LawfulResource α]
    (h : objects.mapM Resource.decode = .ok items) :
    items.map Resource.key = objects.map Object.key := by
  have hall := mapM_eq_ok_iff.1 h
  clear h
  induction hall with
  | nil => rfl
  | cons hdecode _ ih => rw [List.map_cons, List.map_cons, ih, Resource.key_of_decode hdecode]

/-- Objects in another order are decoded to the same items in another order. -/
theorem mapM_perm (hperm : objects'.Perm objects) (h : objects.mapM f = .ok items) :
    ∃ items', objects'.mapM f = .ok items' ∧ items'.Perm items := by
  obtain ⟨items', h', hitems⟩ := List.perm_comp_forall₂ hperm (mapM_eq_ok_iff.1 h)
  exact ⟨items', mapM_eq_ok_iff.2 h', hitems⟩

end decoding
end CampaignControl
