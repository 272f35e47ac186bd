import CampaignControl.Campaign
import CampaignControl.ConfigDocument
import CampaignControl.Proofs.Store.Listing
import CampaignControl.WorkUnit

/-!
# Stores side by side

Two stores that have come from the same one by different numbers of writes differ in versions and
in what a store gives to new objects, if in nothing else (`Object.bare`). What is written to one
slot leaves all others as they are (`Store.AlikeBut`), and so does the creation of work units in
empty slots, apart from those (`Store.Gains`).
-/

namespace CampaignControl

/-- Metadata without what a store gives to a new object, and without its version. -/
def Metadata.bare (m : Metadata) : Metadata :=
  { m with uid := none, version := 0, createdAt := none }

/-- An object without what a store gives to a new one, and without its version. -/
def Object.bare (o : Object) : Object := { o with metadata := o.metadata.bare }

theorem Slot.ne_of_kind_ne {kind kind' : Kind} (h : kind ≠ kind') {key key' : Key} :
    ({ kind, key } : Slot) ≠ { kind := kind', key := key' } :=
  fun heq => h (congrArg Slot.kind heq)

namespace Store

variable {s s' s'' : Store} {slot : Slot} {now : Instant}

/-- Two stores differ in one slot at most, as far as it can be seen in their slots and listings. -/
structure AlikeBut (slot : Slot) (s s' : Store) : Prop where
  find? : ∀ other, other ≠ slot → s'.find? other = s.find? other
  list : ∀ kind filter, kind ≠ slot.kind → s'.list kind filter = s.list kind filter

namespace AlikeBut

theorem refl (slot : Slot) (s : Store) : AlikeBut slot s s := ⟨fun _ _ => rfl, fun _ _ _ => rfl⟩

theorem symm (h : AlikeBut slot s s') : AlikeBut slot s' s :=
  ⟨fun other hne => (h.find? other hne).symm, fun kind filter hne => (h.list kind filter hne).symm⟩

theorem trans (h : AlikeBut slot s s') (h' : AlikeBut slot s' s'') : AlikeBut slot s s'' where
  find? other hne := (h'.find? other hne).trans (h.find? other hne)
  list kind filter hne := (h'.list kind filter hne).trans (h.list kind filter hne)

theorem withNew (s : Store) (now : Instant) (slot : Slot) (object : Object) :
    AlikeBut slot s (s.withNew now slot object) where
  find? _ hne := by rw [find?_withNew, if_neg (Ne.symm hne)]
  list _ _ hne := list_withNew_of_kind_ne (Ne.symm hne) object

theorem withRevised (s : Store) (slot : Slot) (old object : Object) :
    AlikeBut slot s (s.withRevised slot old object) where
  find? _ hne := by rw [find?_withRevised, if_neg (Ne.symm hne)]
  list _ _ hne := list_withRevised_of_kind_ne (Ne.symm hne) old object

end AlikeBut

/-- The campaign at a key. -/
def campaign? (s : Store) (key : Key) : Option Campaign :=
  (s.find? { kind := .campaign, key }).bind fun o => (Resource.decode o).toOption

theorem campaign?_eq_some {key : Key} {campaign : Campaign} :
    s.campaign? key = some campaign ↔
      ∃ o, s.find? { kind := .campaign, key } = some o ∧ Resource.decode o = .ok campaign := by
  unfold campaign?
  rw [Option.bind_eq_some_iff]
  refine exists_congr fun o => and_congr_right fun _ =>
    ⟨Resource.eq_ok_of_toOption_decode, fun h => ?_⟩
  rw [h]
  rfl

/-- A campaign that has been changed is stored with the next version. -/
theorem campaign?_withRevised {key : Key} {object : Object} {current changed : Campaign}
    (hdecode : Resource.decode object = .ok current)
    (hmetadata : changed.metadata = current.metadata) :
    (s.withRevised { kind := .campaign, key } object (Resource.encode changed)).campaign? key =
      some { changed with metadata := { current.metadata with version := s.revision + 1 } } := by
  have hsame : _ = object.metadata := Resource.metadata_of_decode hdecode
  have hstored := Resource.decode_stored (s.revised object (Resource.encode changed)).metadata
    changed
  refine campaign?_eq_some.2 ⟨_, (find?_withRevised ..).trans (if_pos rfl), hstored.trans ?_⟩
  simp only [Store.revised, Resource.encode, Resource.metadata, Resource.setMetadata, hmetadata,
    ← hsame]

theorem AlikeBut.campaign? (h : AlikeBut slot s s') (hkind : slot.kind ≠ .campaign) (key : Key) :
    s'.campaign? key = s.campaign? key :=
  congrArg (Option.bind · _) (h.find? _ fun heq => hkind (congrArg Slot.kind heq.symm))

/-- Whether there is no configuration document in a slot, or one that can be read. -/
def isReadable (s : Store) (slot : Slot) : Bool :=
  (s.find? slot).all fun o =>
    ((Resource.decode o : Except StoreError ConfigDocument).toOption).isSome

theorem AlikeBut.isReadable_eq {other : Slot} (h : AlikeBut slot s s') (hne : other ≠ slot) :
    s'.isReadable other = s.isReadable other :=
  congrArg (Option.all _) (h.find? other hne)

/-- The store after new work units have been put into their slots. -/
def withUnits (s : Store) (now : Instant) : List WorkUnit → Store
  | [] => s
  | u :: rest => (s.withNew now (Resource.slot u) (Resource.encode u)).withUnits now rest

/-- New work units have been put into their slots, each at a time of its own. -/
inductive Gains : List WorkUnit → Store → Store → Prop where
  | nil (s : Store) : Gains [] s s
  | cons {u : WorkUnit} {rest : List WorkUnit} {s s' : Store} (now : Instant) :
    Gains rest (s.withNew now (Resource.slot u) (Resource.encode u)) s' → Gains (u :: rest) s s'

theorem gains_withUnits (s : Store) (now : Instant) (units : List WorkUnit) :
    Gains units s (s.withUnits now units) := by
  induction units generalizing s with
  | nil => exact .nil s
  | cons u rest ih => exact .cons now (ih _)

namespace Gains

variable {units : List WorkUnit}

theorem find?_of_not_mem (h : Gains units s s') (hnot : ∀ u ∈ units, Resource.slot u ≠ slot) :
    s'.find? slot = s.find? slot := by
  induction h with
  | nil => rfl
  | cons now _ ih =>
    rw [ih fun u' hu' => hnot u' (List.mem_cons_of_mem _ hu'), find?_withNew,
      if_neg (hnot _ List.mem_cons_self)]

theorem find?_of_mem (h : Gains units s s') (hnodup : (units.map Resource.slot).Nodup)
    {u : WorkUnit} (hu : u ∈ units) : ∃ (before : Store) (now : Instant),
      s'.find? (Resource.slot u) = some (before.newborn now (Resource.encode u)) := by
  induction h with
  | nil => cases hu
  | @cons u' rest s s' now h' ih =>
    obtain ⟨hnot, hrest⟩ := List.nodup_cons.1 hnodup
    rcases List.mem_cons.1 hu with rfl | hu
    · refine ⟨s, now, ?_⟩
      rw [h'.find?_of_not_mem fun u' hu' heq => hnot (List.mem_map.2 ⟨u', hu', heq⟩),
        find?_withNew, if_pos rfl]
    · exact ih hrest hu

theorem campaign? (h : Gains units s s') (key : Key) : s'.campaign? key = s.campaign? key :=
  congrArg (Option.bind · _) (h.find?_of_not_mem fun _ _ => Slot.ne_of_kind_ne (by decide))

/-- New work units are listed beside those that were listed before. -/
theorem list (h : Gains units s s') {listed : List WorkUnit} {filter : Filter}
    (hlisted : (s.list .workUnit filter).mapM Resource.decode = .ok listed)
    (hnone : ∀ u ∈ units, s.find? (Resource.slot u) = none)
    (hnodup : (units.map Resource.slot).Nodup)
    (hselects : ∀ u ∈ units, ∀ m : Metadata, m.key = u.metadata.key → m.owner = u.metadata.owner →
      m.labels = u.metadata.labels → filter.selects m) :
    ∃ listed' news : List WorkUnit,
      (s'.list .workUnit filter).mapM Resource.decode = .ok listed' ∧
      listed'.Perm (listed ++ news) ∧
      news.map (fun u => (u.spec, u.status)) = units.map fun u => (u.spec, u.status) := by
  induction h generalizing listed with
  | nil => exact ⟨listed, [], hlisted, by rw [List.append_nil], rfl⟩
  | @cons u rest s s' now _ ih =>
    obtain ⟨hnot, hrest⟩ := List.nodup_cons.1 hnodup
    have hperm : ((s.withNew now (Resource.slot u) (Resource.encode u)).list .workUnit filter).Perm
        (s.newborn now (Resource.encode u) :: s.list .workUnit filter) :=
      list_withNew (hnone u List.mem_cons_self) (hselects u List.mem_cons_self _ rfl rfl rfl)
    have hstored := Resource.decode_stored (s.newborn now (Resource.encode u)).metadata u
    obtain ⟨listed₁, hlisted₁, hperm₁⟩ := mapM_perm hperm
      (mapM_eq_ok_iff.2 (.cons hstored (mapM_eq_ok_iff.1 hlisted)))
    obtain ⟨listed', news, hlisted', hperm', hnews⟩ := ih hlisted₁ (fun u' hu' => by
      rw [find?_withNew, if_neg fun heq => hnot (List.mem_map.2 ⟨u', hu', heq.symm⟩)]
      exact hnone u' (List.mem_cons_of_mem _ hu')) hrest
      fun u' hu' => hselects u' (List.mem_cons_of_mem _ hu')
    refine ⟨listed', Resource.setMetadata (s.newborn now (Resource.encode u)).metadata u :: news,
      hlisted', ?_, by rw [List.map_cons, hnews]; rfl⟩
    exact (hperm'.trans (hperm₁.append_right news)).trans List.perm_middle.symm

end Gains
end Store
end CampaignControl
