import CampaignControl.Proofs.Store.Intact

/-!
# What goes with an object

An object takes with it what it owns, what that owns, and so on, except for what is held by a
finalizer: that is marked and stays (`Store.Doomed`, `Store.Cascaded`).

`Store.withdraw` visits one slot after the other, each with what it owns right behind it. Nothing
depends on that order. A visit (`Store.Visit`) is of any slot that is due, and puts what the
removed object owns among what is due in any order; whatever is visited first, visits come to an
end (`Store.visit_wellFounded`), and where nothing is due any more exactly what was doomed is gone
(`Store.Visited.cascaded`). The invariant is `Store.Visited`: what is gone was doomed, and what is
owned by something that is gone is due, unless it is held and marked.
-/

namespace CampaignControl

/-- One object is the owner of another one. -/
def Object.Owns (owner object : Object) : Prop :=
  ∃ uid, owner.metadata.uid = some uid ∧ object.metadata.owner.map (·.uid) = some uid

/-- An object that has been marked for deletion. -/
def Object.marked (o : Object) (time : Instant) (version : Nat) : Object :=
  { o with metadata := { o.metadata with deletedAt := some time, version } }

/-- An object without its version, and without the time of its mark. -/
def Object.undated (o : Object) : Object :=
  { o with
    metadata :=
      { o.metadata with version := 0, deletedAt := o.metadata.deletedAt.map fun _ => .epoch } }

namespace Store

variable {s t t' : Store} {root slot : Slot} {due due' : List Slot}

/-- What goes with the object of a slot: its own slot, and the slot of every object that is not
held by a finalizer and is owned by something that goes. -/
inductive Doomed (s : Store) (root : Slot) : Slot → Prop where
  | root : Doomed s root root
  | owned {slot other : Slot} {o o' : Object} : Doomed s root slot → s.find? slot = some o →
    s.find? other = some o' → o'.metadata.finalizers = [] → o.Owns o' → Doomed s root other

/-- The owner of an object goes. -/
def Bereft (s : Store) (root : Slot) (object : Object) : Prop :=
  ∃ slot o, s.Doomed root slot ∧ s.find? slot = some o ∧ o.Owns object

/-- One store is another one after exactly the doomed objects have gone. -/
structure Cascaded (s : Store) (root : Slot) (s' : Store) : Prop where
  find?_eq_none_iff : ∀ slot, s'.find? slot = none ↔ s.find? slot = none ∨ s.Doomed root slot
  /-- What stays without its owner is marked, with a new version. -/
  marked : ∀ slot o, s.find? slot = some o → ¬ s.Doomed root slot → s.Bereft root o →
    o.metadata.isDeleting = false →
    ∃ time version, s.revision < version ∧ version ≤ s'.revision ∧
      s'.find? slot = some (o.marked time version)
  /-- What has been marked already, or keeps its owner, is as it was. -/
  unchanged : ∀ slot o, s.find? slot = some o → ¬ s.Doomed root slot →
    ¬ s.Bereft root o ∨ o.metadata.isDeleting → s'.find? slot = some o

/-- A visit of a slot that is due, in any position. What a removed object owns becomes due. -/
inductive Visit : List Slot × Store → List Slot × Store → Prop where
  | absent (front back : List Slot) {slot : Slot} {t : Store} : t.find? slot = none →
    Visit (front ++ slot :: back, t) (front ++ back, t.advance)
  | remove (front back : List Slot) {due : List Slot} {slot : Slot} {t : Store} {o : Object} :
    t.find? slot = some o → o.metadata.finalizers = [] →
    due.Perm ((t.advance.drop slot).ownedBy o.metadata.uid ++ (front ++ back)) →
    Visit (front ++ slot :: back, t) (due, t.advance.drop slot)
  | pass (front back : List Slot) {slot : Slot} {t : Store} {o : Object} :
    t.find? slot = some o → o.metadata.finalizers ≠ [] → o.metadata.isDeleting →
    Visit (front ++ slot :: back, t) (front ++ back, t.advance)
  | mark (front back : List Slot) {slot : Slot} {t : Store} {o : Object} (now : Instant) :
    t.find? slot = some o → o.metadata.finalizers ≠ [] → o.metadata.isDeleting = false →
    Visit (front ++ slot :: back, t)
      (front ++ back, t.advance.touch slot fun m => { m with deletedAt := some now })

/-- Any number of visits. -/
abbrev Visits : List Slot × Store → List Slot × Store → Prop := Relation.ReflTransGen Visit

/-! ## Visits come to an end -/

/-- However slots are chosen, there is no unending sequence of visits: each of them takes an object
from the store, or else a slot from those that are due. -/
theorem visit_wellFounded : WellFounded fun after before => Visit before after := by
  refine Subrelation.wf (r := InvImage (Prod.Lex (· < ·) (· < ·))
    fun state : List Slot × Store => (state.2.objects.length, state.1.length)) ?_
    (InvImage.wf _ (Prod.lex (inferInstance : WellFoundedRelation Nat) inferInstance).wf)
  intro after before h
  cases h with
  | absent | pass => exact .right _ (by simp)
  | remove _ _ hfind => exact .left _ _ (Keyed.length_erase_lt hfind)
  | mark =>
    simp only [InvImage, advance, touch, Keyed.length_adjust]
    exact .right _ (by simp)

/-- As long as something is due there is a visit to make. -/
theorem exists_visit (slot : Slot) (rest : List Slot) (t : Store) :
    ∃ after, Visit (slot :: rest, t) after := by
  cases hfind : t.find? slot with
  | none => exact ⟨_, .absent [] _ hfind⟩
  | some o =>
    by_cases hfin : o.metadata.finalizers = []
    · exact ⟨_, .remove [] _ hfind hfin (.refl _)⟩
    · cases hdel : o.metadata.isDeleting with
      | true => exact ⟨_, .pass [] _ hfind hfin hdel⟩
      | false => exact ⟨_, .mark [] _ .epoch hfind hfin hdel⟩

/-- To visit each slot with what it owns right behind it is one order among others. -/
theorem withdraw_visits (now : Instant) (due : List Slot) (t : Store) :
    Visits (due, t) ([], t.withdraw now due) := by
  fun_induction withdraw now due t with
  | case1 t => exact .refl
  | case2 slot rest t found ih => exact .head (.absent [] _ found) ih
  | case3 slot rest t object found hfin left ih =>
    exact .head (.remove [] _ found hfin (.refl _)) ih
  | case4 slot rest t object found hfin hdel ih =>
    exact .head (.pass [] _ found hfin hdel) ih
  | case5 slot rest t object found hfin hdel ih =>
    exact .head (.mark [] _ now found hfin (Bool.not_eq_true _ ▸ hdel)) ih

/-! ## What has been done when -/

theorem mem_ownedBy (h : Keyed.Ascending t.objects) {uid : Option Uid} :
    slot ∈ t.ownedBy uid ↔ ∃ o, t.find? slot = some o ∧
      ∃ u, uid = some u ∧ o.metadata.owner.map (·.uid) = some u := by
  cases uid with
  | none => simp [ownedBy]
  | some u =>
    simp only [ownedBy, List.mem_map, List.mem_filter, decide_eq_true_eq, Option.some.injEq,
      exists_eq_left']
    constructor
    · rintro ⟨⟨slot, o⟩, ⟨hmem, howner⟩, rfl⟩
      exact ⟨o, h.mem_iff.1 hmem, howner⟩
    · rintro ⟨o, found, howner⟩
      exact ⟨(slot, o), ⟨h.mem_iff.2 found, howner⟩, rfl⟩

/-- How far the visits have come that began when the object of a slot was removed from `s`. -/
structure Visited (s : Store) (root : Slot) (due : List Slot) (t : Store) : Prop where
  ascending : Keyed.Ascending t.objects
  revision_lt : s.revision < t.revision
  root_gone : t.find? root = none
  doomed : ∀ slot o, s.find? slot = some o → t.find? slot = none → s.Doomed root slot
  stored : ∀ slot o', t.find? slot = some o' → ∃ o, s.find? slot = some o ∧
    (o' = o ∨ o.metadata.finalizers ≠ [] ∧ o.metadata.isDeleting = false ∧ s.Bereft root o ∧
      ∃ time version, s.revision < version ∧ version ≤ t.revision ∧ o' = o.marked time version)
  bereft : ∀ slot ∈ due, ∀ o, s.find? slot = some o → s.Bereft root o
  owned : ∀ slot o, s.find? slot = some o → t.find? slot = none → ∀ other o',
    t.find? other = some o' → o.Owns o' →
    other ∈ due ∨ o'.metadata.finalizers ≠ [] ∧ o'.metadata.isDeleting

namespace Visited

/-- An object that is not held is still as it was. -/
theorem eq_of_finalizers (h : s.Visited root due t) {o : Object} (found : t.find? slot = some o)
    (hfin : o.metadata.finalizers = []) : s.find? slot = some o := by
  obtain ⟨old, hold, rfl | ⟨hne, -, -, _, _, -, -, rfl⟩⟩ := h.stored slot o found
  · exact hold
  · exact absurd hfin hne

/-- An object that is not to be deleted is still as it was. -/
theorem eq_of_isDeleting (h : s.Visited root due t) {o : Object} (found : t.find? slot = some o)
    (hdel : o.metadata.isDeleting = false) : s.find? slot = some o := by
  obtain ⟨old, hold, rfl | ⟨-, -, -, _, _, -, -, rfl⟩⟩ := h.stored slot o found
  · exact hold
  · cases hdel

/-- Objects stay what they have become when the revision goes up. -/
theorem stored_succ (h : s.Visited root due t) {o' : Object} (found : t.find? slot = some o') :
    ∃ o, s.find? slot = some o ∧
      (o' = o ∨ o.metadata.finalizers ≠ [] ∧ o.metadata.isDeleting = false ∧ s.Bereft root o ∧
        ∃ time version, s.revision < version ∧ version ≤ t.revision + 1 ∧
          o' = o.marked time version) := by
  obtain ⟨o, hold, heq | ⟨hfin, hdel, hbereft, time, version, hlt, hle, heq⟩⟩ :=
    h.stored slot o' found
  · exact ⟨o, hold, .inl heq⟩
  · exact ⟨o, hold, .inr ⟨hfin, hdel, hbereft, time, version, hlt, Nat.le_succ_of_le hle, heq⟩⟩

/-- The visits begin with what the removed object owns. -/
theorem start (hs : s.Sound) {x : Object} (found : s.find? root = some x) :
    s.Visited root ((s.advance.drop root).ownedBy x.metadata.uid) (s.advance.drop root) := by
  have hasc : Keyed.Ascending (s.advance.drop root).objects := hs.ascending.erase root
  refine ⟨hasc, Nat.lt_succ_self _, by rw [find?_drop, if_pos rfl], fun slot o hold hgone => ?_,
    fun slot o' found' => ?_, fun slot hmem o hold => ?_,
    fun slot o hold hgone other o' found' => ?_⟩
  · rw [find?_drop] at hgone
    split at hgone
    · next heq => exact heq ▸ .root
    · rw [find?_advance, hold] at hgone; cases hgone
  · rw [find?_drop] at found'
    split at found'
    · cases found'
    · exact ⟨o', found', .inl rfl⟩
  · obtain ⟨o', found', u, huid, howner⟩ := (mem_ownedBy hasc).1 hmem
    rw [find?_drop] at found'
    split at found'
    · cases found'
    · rw [find?_advance, hold] at found'
      cases found'
      exact ⟨root, x, .root, found, u, huid, howner⟩
  · rintro ⟨u, huid, howner⟩
    rw [find?_drop] at hgone
    split at hgone
    · next heq =>
      subst heq
      rw [found] at hold
      cases hold
      exact .inl ((mem_ownedBy hasc).2 ⟨o', found', u, huid, howner⟩)
    · rw [find?_advance, hold] at hgone; cases hgone

/-- Nothing but the revision has changed, and one slot is not due any more. -/
theorem skip {front back : List Slot} (h : s.Visited root (front ++ slot :: back) t)
    (hslot : ∀ o, t.find? slot = some o → o.metadata.finalizers ≠ [] ∧ o.metadata.isDeleting) :
    s.Visited root (front ++ back) t.advance where
  ascending := h.ascending
  revision_lt := Nat.lt_succ_of_lt h.revision_lt
  root_gone := h.root_gone
  doomed := h.doomed
  stored _ _ found := h.stored_succ found
  bereft other hmem :=
    h.bereft other (List.perm_middle.mem_iff.2 (List.mem_cons_of_mem _ hmem))
  owned gone o hold hgone other o' found howns := by
    rcases h.owned gone o hold hgone other o' found howns with hmem | hmarked
    · rcases List.mem_cons.1 (List.perm_middle.mem_iff.1 hmem) with rfl | hmem
      · exact .inr (hslot o' found)
      · exact .inl hmem
    · exact .inr hmarked

theorem remove {front back : List Slot} {o : Object} (h : s.Visited root (front ++ slot :: back) t)
    (found : t.find? slot = some o) (hfin : o.metadata.finalizers = [])
    (hdue : due.Perm ((t.advance.drop slot).ownedBy o.metadata.uid ++ (front ++ back))) :
    s.Visited root due (t.advance.drop slot) := by
  have hasc : Keyed.Ascending (t.advance.drop slot).objects := h.ascending.erase slot
  have hold := h.eq_of_finalizers found hfin
  obtain ⟨owner, oo, hdoomed, howner, howns⟩ :=
    h.bereft slot (List.mem_append_right _ List.mem_cons_self) o hold
  have hslot : s.Doomed root slot := .owned hdoomed howner hold hfin howns
  have hkept : ∀ {other o'}, (t.advance.drop slot).find? other = some o' →
      t.find? other = some o' ∧ slot ≠ other := by
    intro other o' found
    rw [find?_drop] at found
    split at found
    · cases found
    · next hne => exact ⟨found, hne⟩
  have hgone_cases : ∀ {other}, (t.advance.drop slot).find? other = none →
      slot = other ∨ t.find? other = none := by
    intro other hgone
    rw [find?_drop] at hgone
    split at hgone
    · next heq => exact .inl heq
    · exact .inr hgone
  refine ⟨hasc, Nat.lt_succ_of_lt h.revision_lt, ?_, fun other o' hold' hgone => ?_,
    fun other o' found' => h.stored_succ (hkept found').1, fun other hmem o' hold' => ?_,
    fun gone og hog hgone other o' found' howns' => ?_⟩
  · rw [find?_drop]
    split
    · rfl
    · exact h.root_gone
  · rcases hgone_cases hgone with rfl | hgone
    · exact hslot
    · exact h.doomed other o' hold' hgone
  · rcases List.mem_append.1 (hdue.mem_iff.1 hmem) with hmem | hmem
    · obtain ⟨o₁, found₁, u, huid, howner⟩ := (mem_ownedBy hasc).1 hmem
      -- the owner has not changed even if the object has been marked
      obtain ⟨o₂, hold₂, hcase⟩ := h.stored other o₁ (hkept found₁).1
      rw [hold'] at hold₂
      cases hold₂
      refine ⟨slot, o, hslot, hold, u, huid, ?_⟩
      rcases hcase with rfl | ⟨-, -, -, _, _, -, -, rfl⟩
      · exact howner
      · exact howner
    · exact h.bereft other (List.perm_middle.mem_iff.2 (List.mem_cons_of_mem _ hmem)) o' hold'
  · obtain ⟨found', hne⟩ := hkept found'
    rcases hgone_cases hgone with rfl | hgone
    · rw [hold] at hog
      cases hog
      obtain ⟨u, huid, howner⟩ := howns'
      refine .inl (hdue.mem_iff.2 (List.mem_append_left _ ((mem_ownedBy hasc).2
        ⟨o', ?_, u, huid, howner⟩)))
      rw [find?_drop, if_neg hne]
      exact found'
    · rcases h.owned gone og hog hgone other o' found' howns' with hmem | hmarked
      · refine .inl (hdue.mem_iff.2 (List.mem_append_right _ ?_))
        exact List.mem_of_ne_of_mem hne.symm (List.perm_middle.mem_iff.1 hmem)
      · exact .inr hmarked

theorem mark {front back : List Slot} {o : Object} (h : s.Visited root (front ++ slot :: back) t)
    (now : Instant) (found : t.find? slot = some o) (hfin : o.metadata.finalizers ≠ [])
    (hdel : o.metadata.isDeleting = false) :
    s.Visited root (front ++ back)
      (t.advance.touch slot fun m => { m with deletedAt := some now }) := by
  have hold := h.eq_of_isDeleting found hdel
  have hbereft := h.bereft slot (List.mem_append_right _ List.mem_cons_self) o hold
  have hcases : ∀ {other o'},
      (t.advance.touch slot fun m => { m with deletedAt := some now }).find? other = some o' →
      (slot = other ∧ o' = o.marked now (t.revision + 1)) ∨
        (slot ≠ other ∧ t.find? other = some o') := by
    intro other o' found'
    rw [find?_touch, find?_advance] at found'
    split at found'
    · next heq =>
      subst heq
      rw [found] at found'
      cases found'
      exact .inl ⟨rfl, rfl⟩
    · next hne => exact .inr ⟨hne, found'⟩
  have hgone : ∀ {other},
      (t.advance.touch slot fun m => { m with deletedAt := some now }).find? other = none →
      t.find? other = none := by
    intro other hnone
    rw [find?_touch, find?_advance] at hnone
    split at hnone
    · next heq =>
      subst heq
      exact Option.map_eq_none_iff.1 hnone
    · exact hnone
  refine ⟨h.ascending.adjust .., Nat.lt_succ_of_lt h.revision_lt, ?_,
    fun other o' hold' hnone => h.doomed other o' hold' (hgone hnone),
    fun other o' found' => ?_, fun other hmem =>
      h.bereft other (List.perm_middle.mem_iff.2 (List.mem_cons_of_mem _ hmem)),
    fun gone og hog hnone other o' found' howns' => ?_⟩
  · rw [find?_touch, find?_advance, h.root_gone]
    split <;> rfl
  · rcases hcases found' with ⟨rfl, rfl⟩ | ⟨-, found'⟩
    · exact ⟨o, hold, .inr ⟨hfin, hdel, hbereft, now, t.revision + 1,
        Nat.lt_succ_of_lt h.revision_lt, Nat.le_refl _, rfl⟩⟩
    · exact h.stored_succ found'
  · rcases hcases found' with ⟨rfl, rfl⟩ | ⟨hne, found'⟩
    · exact .inr ⟨hfin, rfl⟩
    · rcases h.owned gone og hog (hgone hnone) other o' found' howns' with hmem | hmarked
      · exact .inl (List.mem_of_ne_of_mem hne.symm (List.perm_middle.mem_iff.1 hmem))
      · exact .inr hmarked

theorem visit (h : s.Visited root due t) (hvisit : Visit (due, t) (due', t')) :
    s.Visited root due' t' := by
  cases hvisit with
  | absent _ _ hnone => exact h.skip fun o found => by rw [hnone] at found; cases found
  | remove _ _ found hfin hdue => exact h.remove found hfin hdue
  | pass _ _ found hfin hdel =>
    exact h.skip fun o' found' => by rw [found] at found'; cases found'; exact ⟨hfin, hdel⟩
  | mark _ _ now found hfin hdel => exact h.mark now found hfin hdel

theorem visits (h : s.Visited root due t) (hvisits : Visits (due, t) (due', t')) :
    s.Visited root due' t' := by
  suffices ∀ {before after : List Slot × Store}, Visits before after →
      s.Visited root before.1 before.2 → s.Visited root after.1 after.2 from this hvisits h
  intro before after hvisits h
  induction hvisits with
  | refl => exact h
  | tail _ hstep ih => exact ih.visit hstep

/-- Where nothing is due any more, what was doomed is gone and nothing else is. -/
theorem cascaded (h : s.Visited root [] t) : s.Cascaded root t := by
  have hgone : ∀ {slot}, s.Doomed root slot → t.find? slot = none := by
    intro slot hdoomed
    induction hdoomed with
    | root => exact h.root_gone
    | @owned slot other o o' _ hold hold' hfin howns ih =>
      cases found : t.find? other with
      | none => rfl
      | some o'' =>
        obtain ⟨o₁, hold₁, rfl | ⟨hne, -⟩⟩ := h.stored other o'' found
        · rw [hold'] at hold₁
          cases hold₁
          rcases h.owned slot o hold ih other o' found howns with hmem | ⟨hne, -⟩
          · cases hmem
          · exact absurd hfin hne
        · rw [hold'] at hold₁
          cases hold₁
          exact absurd hfin hne
  refine ⟨fun slot => ⟨fun hnone => ?_, fun hcase => ?_⟩, fun slot o hold hnot hbereft hdel => ?_,
    fun slot o hold hnot hcase => ?_⟩
  · cases hold : s.find? slot with
    | none => exact .inl rfl
    | some o => exact .inr (h.doomed slot o hold hnone)
  · rcases hcase with hnone | hdoomed
    · cases found : t.find? slot with
      | none => rfl
      | some o' =>
        obtain ⟨o, hold, -⟩ := h.stored slot o' found
        rw [hnone] at hold
        cases hold
    · exact hgone hdoomed
  all_goals
    obtain ⟨o', found⟩ : ∃ o', t.find? slot = some o' := by
      cases found : t.find? slot with
      | none => exact absurd (h.doomed slot o hold found) hnot
      | some o' => exact ⟨o', rfl⟩
    obtain ⟨o₁, hold₁, heq⟩ := h.stored slot o' found
    rw [hold] at hold₁
    cases hold₁
  · obtain ⟨owner, oo, hdoomed, howner, howns⟩ := hbereft
    rcases heq with rfl | ⟨-, -, -, time, version, hlt, hle, rfl⟩
    · rcases h.owned owner oo howner (hgone hdoomed) slot o' found howns with hmem | ⟨-, hdel'⟩
      · cases hmem
      · rw [hdel] at hdel'; cases hdel'
    · exact ⟨time, version, hlt, hle, found⟩
  · rcases heq with rfl | ⟨-, hdel, hbereft, -⟩
    · exact found
    · rcases hcase with hcase | hcase
      · exact absurd hbereft hcase
      · rw [hdel] at hcase; cases hcase

end Visited

/-! ## Cascades -/

/-- What a cascade leaves is determined up to versions and times. -/
theorem Cascaded.undated_eq (h : s.Cascaded root t) (h' : s.Cascaded root t') (slot : Slot) :
    (t.find? slot).map Object.undated = (t'.find? slot).map Object.undated := by
  by_cases hgone : s.find? slot = none ∨ s.Doomed root slot
  · rw [(h.find?_eq_none_iff slot).2 hgone, (h'.find?_eq_none_iff slot).2 hgone]
  · obtain ⟨hsome, hnot⟩ := not_or.1 hgone
    obtain ⟨o, hold⟩ := Option.ne_none_iff_exists'.1 hsome
    by_cases hbereft : s.Bereft root o ∧ o.metadata.isDeleting = false
    · obtain ⟨time, version, -, -, found⟩ := h.marked slot o hold hnot hbereft.1 hbereft.2
      obtain ⟨time', version', -, -, found'⟩ := h'.marked slot o hold hnot hbereft.1 hbereft.2
      rw [found, found']
      rfl
    · have hcase : ¬ s.Bereft root o ∨ o.metadata.isDeleting := by
        rw [not_and_or, Bool.not_eq_false] at hbereft
        exact hbereft
      rw [h.unchanged slot o hold hnot hcase, h'.unchanged slot o hold hnot hcase]

/-- Where a removal with what is owned begins: the object has gone, and what it owns is due. -/
def cascadeOf (s : Store) (slot : Slot) (object : Object) : List Slot × Store :=
  ((s.advance.drop slot).ownedBy object.metadata.uid, s.advance.drop slot)

theorem remove_eq_withdraw (now : Instant) {propagation : Propagation} {o : Object}
    (hnot : propagation ≠ .orphan) (found : s.find? slot = some o) :
    s.remove now propagation slot =
      (s.drop slot).withdraw now ((s.drop slot).ownedBy o.metadata.uid) := by
  unfold Store.remove
  rw [found]
  cases propagation with
  | orphan => exact absurd rfl hnot
  | background | foreground => rfl

theorem drop_withRevised (s : Store) (slot : Slot) (old object : Object) :
    (s.withRevised slot old object).drop slot = s.advance.drop slot := by
  simp only [withRevised, put, drop, Keyed.erase_insert]

theorem delete_visits (now : Instant) {propagation : Propagation} {o : Object}
    (hnot : propagation ≠ .orphan) (found : s.find? slot = some o)
    (hfin : o.metadata.finalizers = []) :
    ∃ s', s.delete now slot.kind slot.key propagation = (.ok (), s') ∧
      Visits (s.cascadeOf slot o) ([], s') := by
  have found' : s.advance.find? { kind := slot.kind, key := slot.key } = some o := found
  refine ⟨s.advance.remove now propagation slot, ?_, ?_⟩
  · simp only [delete, found', hfin, if_true]
  · rw [remove_eq_withdraw now hnot found']
    exact withdraw_visits now _ _

theorem update_visits (now : Instant) {old object : Object} (found : s.find? slot = some old)
    (hdel : old.metadata.isDeleting) (hkey : object.key = slot.key)
    (hv : object.metadata.version = old.metadata.version)
    (hfin : object.metadata.finalizers = []) :
    ∃ s', s.update now slot.kind object = (.ok (s.revised old object), s') ∧
      Visits (s.cascadeOf slot old) ([], s') := by
  have hslot : ({ kind := slot.kind, key := object.key } : Slot) = slot := by rw [hkey]
  refine ⟨(s.withRevised slot old object).remove now .background slot, ?_, ?_⟩
  · have hgoes : ((s.revised old object).metadata.isDeleting &&
        (s.revised old object).metadata.finalizers.isEmpty) = true :=
      Bool.and_eq_true_iff.2 ⟨hdel, List.isEmpty_iff.2 hfin⟩
    simp only [update, hslot, found, hv, ne_eq, not_true_eq_false, if_false]
    exact if_pos hgoes
  · have hput : (s.withRevised slot old object).find? slot = some (s.revised old object) :=
      find?_put_self
    rw [remove_eq_withdraw now (show Propagation.background ≠ .orphan by decide) hput,
      drop_withRevised]
    exact withdraw_visits now _ _

/-- **A removal takes exactly what is owned.** In whatever way the objects of a store own each
other, the deletion of an object without finalizers leaves it cascaded, and so does a change that
takes the last finalizer from an object that is to be deleted. What is owned may be visited in any
order: there is no unending sequence of visits, and all that end with nothing due leave the same
up to versions and times. -/
theorem removal_cascades (hs : s.Reached) {x : Object} (found : s.find? slot = some x) :
    (x.metadata.finalizers = [] → ∀ now propagation, propagation ≠ .orphan →
      ∃ s', s.delete now slot.kind slot.key propagation = (.ok (), s') ∧ s.Cascaded slot s' ∧
        Visits (s.cascadeOf slot x) ([], s')) ∧
    (x.metadata.isDeleting → ∀ now object, object.key = slot.key →
      object.metadata.version = x.metadata.version → object.metadata.finalizers = [] →
      ∃ s', s.update now slot.kind object = (.ok (s.revised x object), s') ∧ s.Cascaded slot s' ∧
        Visits (s.cascadeOf slot x) ([], s')) ∧
    (WellFounded fun after before => Visit before after) ∧
    (∀ due t, Visits (s.cascadeOf slot x) (due, t) → due ≠ [] → ∃ after, Visit (due, t) after) ∧
    (∀ t, Visits (s.cascadeOf slot x) ([], t) → s.Cascaded slot t) ∧
    ∀ t t', Visits (s.cascadeOf slot x) ([], t) → Visits (s.cascadeOf slot x) ([], t') →
      ∀ other, (t.find? other).map Object.undated = (t'.find? other).map Object.undated := by
  have hcascaded : ∀ t, Visits (s.cascadeOf slot x) ([], t) → s.Cascaded slot t :=
    fun t hvisits => ((Visited.start hs.intact.toSound found).visits hvisits).cascaded
  refine ⟨fun hfin now propagation hnot => ?_, fun hdel now object hkey hv hfin => ?_,
    visit_wellFounded, fun due t _ hdue => ?_, hcascaded,
    fun t t' h h' => (hcascaded t h).undated_eq (hcascaded t' h')⟩
  · obtain ⟨s', hdelete, hvisits⟩ := delete_visits now hnot found hfin
    exact ⟨s', hdelete, hcascaded s' hvisits, hvisits⟩
  · obtain ⟨s', hupdate, hvisits⟩ := update_visits now found hdel hkey hv hfin
    exact ⟨s', hupdate, hcascaded s' hvisits, hvisits⟩
  · obtain ⟨slot, rest, rfl⟩ := List.exists_cons_of_ne_nil hdue
    exact exists_visit slot rest t

/-! ## Two objects that own each other -/

/-- The slot of a work unit for a test. -/
def sampleSlot (name : String) : Slot := { kind := .workUnit, key := { space := "fleet", name } }

/-- An object for a test, with an owner and finalizers. -/
def sampleObject (name : String) (owner : Option Nat) (finalizers : List String) : Object where
  metadata :=
    { key := { space := "fleet", name }
      owner := owner.map fun n => { kind := "WorkUnit", name := "owner", uid := .issued n }
      finalizers }
  body := []

/-- The first object owns the second one, which owns the first one and a third one. -/
def sampleGraph : List (Instant × StoreRequest) :=
  let revised := sampleObject "first" (some 2) []
  [(.epoch, .create .workUnit (sampleObject "first" none [])),
    (.epoch, .create .workUnit (sampleObject "second" (some 1) [])),
    (.epoch, .create .workUnit (sampleObject "third" (some 2) ["hold"])),
    (.epoch, .update .workUnit { revised with metadata := { revised.metadata with version := 1 } })]

/-- Both objects of the circle go, and the third one is marked. -/
theorem removal_cascades_sample :
    ∃ s s' : Store, s.Reached ∧ (s.delete .epoch .workUnit ⟨"fleet", "first"⟩ .foreground).2 = s' ∧
      (s.find? (sampleSlot "second")).isSome ∧ s'.find? (sampleSlot "first") = none ∧
      s'.find? (sampleSlot "second") = none ∧
      ((s'.find? (sampleSlot "third")).any fun o => o.metadata.isDeleting) := by
  obtain ⟨first, hfirst, hfree⟩ : ∃ o, (({} : Store).serveAll sampleGraph).find?
      (sampleSlot "first") = some o ∧ o.metadata.finalizers = [] := ⟨_, rfl, rfl⟩
  have hreached : (({} : Store).serveAll sampleGraph).Reached := ⟨_, rfl⟩
  obtain ⟨s', hdelete, hcascaded, -⟩ :=
    (removal_cascades hreached hfirst).1 hfree .epoch .foreground nofun
  have hsecond : (({} : Store).serveAll sampleGraph).Doomed (sampleSlot "first")
      (sampleSlot "second") := by
    refine .owned .root hfirst rfl rfl ⟨.issued 1, ?_, rfl⟩
    cases hfirst
    rfl
  obtain ⟨third, hthird, hheld, hactive⟩ : ∃ o, (({} : Store).serveAll sampleGraph).find?
      (sampleSlot "third") = some o ∧ o.metadata.finalizers = ["hold"] ∧
        o.metadata.isDeleting = false := ⟨_, rfl, rfl, rfl⟩
  have hstays : ∀ slot, (({} : Store).serveAll sampleGraph).Doomed (sampleSlot "first") slot →
      slot ≠ sampleSlot "third" := by
    intro slot hdoomed hslot
    cases hdoomed with
    | root => exact absurd hslot (by decide)
    | owned _ _ found hfin =>
      rw [hslot, hthird] at found
      cases found
      rw [hheld] at hfin
      cases hfin
  have hbereft : (({} : Store).serveAll sampleGraph).Bereft (sampleSlot "first") third := by
    refine ⟨_, _, hsecond, rfl, .issued 2, rfl, ?_⟩
    cases hthird
    rfl
  obtain ⟨time, version, -, -, hmarked⟩ := hcascaded.marked _ _ hthird
    (fun h => hstays _ h rfl) hbereft hactive
  refine ⟨_, s', hreached, congrArg Prod.snd hdelete, rfl,
    (hcascaded.find?_eq_none_iff _).2 (.inr .root),
    (hcascaded.find?_eq_none_iff _).2 (.inr hsecond), ?_⟩
  rw [hmarked]
  rfl

end Store
end CampaignControl
