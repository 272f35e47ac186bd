import CampaignControl.Proofs.Store.Cascade

/-!
# Outcomes of requests

Everything that a request may make of a store (`Store.Outcome`): one object is new, replaced or
marked, or one has gone and what it owns with it. Whoever has to know what is left alone by a
request takes it apart once, and does not look into the store again (`Store.serve_outcome`).
-/

namespace CampaignControl
namespace Store

variable {s s' : Store} {slot : Slot} {x : Object}

/-! ## Removals -/

theorem cascaded_of_free (hs : s.Sound) (found : s.find? slot = some x)
    (hfin : x.metadata.finalizers = []) (now : Instant) {propagation : Propagation}
    (hnot : propagation ≠ .orphan) :
    s.Cascaded slot (s.delete now slot.kind slot.key propagation).2 := by
  obtain ⟨s', heq, hvisits⟩ := delete_visits now hnot found hfin
  rw [heq]
  exact ((Visited.start hs found).visits hvisits).cascaded

theorem cascaded_of_freed (hs : s.Sound) (found : s.find? slot = some x)
    (hdel : x.metadata.isDeleting) (now : Instant) {object : Object} (hkey : object.key = slot.key)
    (hv : object.metadata.version = x.metadata.version) (hfin : object.metadata.finalizers = []) :
    s.Cascaded slot (s.update now slot.kind object).2 := by
  obtain ⟨s', heq, hvisits⟩ := update_visits now found hdel hkey hv hfin
  rw [heq]
  exact ((Visited.start hs found).visits hvisits).cascaded

/-- An object that owns nothing goes alone. -/
theorem delete_of_childless (found : s.find? slot = some x) (hfin : x.metadata.finalizers = [])
    (hnone : (s.advance.drop slot).ownedBy x.metadata.uid = []) (now : Instant)
    {propagation : Propagation} (hnot : propagation ≠ .orphan) :
    (s.delete now slot.kind slot.key propagation).2 = s.advance.drop slot := by
  have found' : s.advance.find? { kind := slot.kind, key := slot.key } = some x := found
  simp only [delete, found', hfin, if_true]
  rw [remove_eq_withdraw now hnot found', hnone, withdraw]

/-- Nothing else goes with an object that owns nothing. -/
theorem Cascaded.find?_of_childless {root : Slot} (h : s.Cascaded root s')
    (hroot : s.find? root = some x) (hnone : ∀ other o, s.find? other = some o → ¬ x.Owns o)
    (hne : slot ≠ root) : s'.find? slot = s.find? slot := by
  have hdoomed : ∀ other, s.Doomed root other → other = root := by
    intro other hgoes
    induction hgoes with
    | root => rfl
    | @owned owner other o o' _ howner hother _ howns ih =>
      subst ih
      cases hroot.symm.trans howner
      exact absurd howns (hnone other o' hother)
  have hstays : ¬ s.Doomed root slot := fun hgoes => hne (hdoomed slot hgoes)
  cases hfind : s.find? slot with
  | none => exact (h.find?_eq_none_iff slot).2 (.inl hfind)
  | some o =>
    apply h.unchanged slot o hfind hstays
    left
    rintro ⟨owner, x', hgoes, howner, howns⟩
    cases hdoomed owner hgoes
    cases hroot.symm.trans howner
    exact hnone slot o hfind howns

/-- An object that owns nothing is deleted, and nothing else happens. -/
theorem delete_alone (hs : s.Sound) (found : s.find? slot = some x)
    (hfin : x.metadata.finalizers = []) (hnone : ∀ other o, s.find? other = some o → ¬ x.Owns o)
    (now : Instant) :
    ∃ s', s.delete now slot.kind slot.key .background = (.ok (), s') ∧ s'.find? slot = none ∧
      ∀ other, other ≠ slot → s'.find? other = s.find? other := by
  have hnot : Propagation.background ≠ .orphan := nofun
  obtain ⟨s', hdelete, -⟩ := delete_visits now hnot found hfin
  have hcascaded := cascaded_of_free hs found hfin now hnot
  rw [hdelete] at hcascaded
  exact ⟨s', hdelete, (hcascaded.find?_eq_none_iff _).2 (.inr .root),
    fun other hne => hcascaded.find?_of_childless found hnone hne⟩

/-- An object that is held is marked, and nothing else happens. -/
theorem delete_held (found : s.find? slot = some x) (hfin : x.metadata.finalizers ≠ [])
    (hstays : x.metadata.isDeleting = false) (now : Instant) (propagation : Propagation) :
    ∃ s', s.delete now slot.kind slot.key propagation = (.ok (), s') ∧
      s'.find? slot = some (x.marked now (s.revision + 1)) ∧
      ∀ other, other ≠ slot → s'.find? other = s.find? other := by
  have found' : s.advance.find? { kind := slot.kind, key := slot.key } = some x := found
  refine ⟨s.advance.touch slot fun m => { m with deletedAt := some now }, ?_, ?_,
    fun other hne => ?_⟩
  · simp only [delete, found', if_neg hfin, hstays, Bool.false_eq_true, if_false]
  · rw [find?_touch, if_pos rfl, find?_advance, found]
    rfl
  · rw [find?_touch, if_neg (Ne.symm hne), find?_advance]

/-- What is stored after a cascade was stored before, or has been marked. -/
theorem Cascaded.find?_cases {root : Slot} (h : s.Cascaded root s') {o' : Object}
    (found : s'.find? slot = some o') :
    ∃ o, s.find? slot = some o ∧ (o' = o ∨ ∃ time version, o' = o.marked time version) ∧
      (s.Bereft root o → o'.metadata.isDeleting) := by
  have hnot : ¬ (s.find? slot = none ∨ s.Doomed root slot) := by
    intro hgone
    rw [(h.find?_eq_none_iff slot).2 hgone] at found
    cases found
  obtain ⟨hsome, hstays⟩ := not_or.1 hnot
  obtain ⟨o, hold⟩ := Option.ne_none_iff_exists'.1 hsome
  refine ⟨o, hold, ?_⟩
  by_cases hcase : s.Bereft root o ∧ o.metadata.isDeleting = false
  · obtain ⟨time, version, -, -, hmarked⟩ := h.marked slot o hold hstays hcase.1 hcase.2
    cases hmarked.symm.trans found
    exact ⟨.inr ⟨time, version, rfl⟩, fun _ => rfl⟩
  · rw [not_and_or, Bool.not_eq_false] at hcase
    cases (h.unchanged slot o hold hstays hcase).symm.trans found
    exact ⟨.inl rfl, fun hbereft => hcase.resolve_left (not_not_intro hbereft)⟩

/-! ## All requests -/

/-- What a request may make of a store. -/
inductive Outcome (s : Store) : StoreRequest → Store → Prop where
  | idle {r : StoreRequest} {s' : Store} : (∀ slot, s'.find? slot = s.find? slot) → Outcome s r s'
  | create {kind : Kind} {object : Object} (now : Instant) :
    s.find? { kind, key := object.key } = none →
    Outcome s (.create kind object) (s.withNew now { kind, key := object.key } object)
  | revise {kind : Kind} {old object : Object} : s.find? { kind, key := object.key } = some old →
    object.metadata.version = old.metadata.version →
    Outcome s (.update kind object) (s.withRevised { kind, key := object.key } old object)
  /-- A change takes the last finalizer from an object that is to be deleted. -/
  | release {kind : Kind} {old object : Object} {s' : Store} :
    s.find? { kind, key := object.key } = some old →
    object.metadata.version = old.metadata.version → old.metadata.isDeleting →
    object.metadata.finalizers = [] → s.Cascaded { kind, key := object.key } s' →
    Outcome s (.update kind object) s'
  | mark {kind : Kind} {key : Key} {propagation : Propagation} {o : Object} {s' : Store}
    (time : Instant) (version : Nat) :
    s.find? { kind, key } = some o → o.metadata.finalizers ≠ [] →
    s'.find? { kind, key } = some (o.marked time version) →
    (∀ other, { kind, key } ≠ other → s'.find? other = s.find? other) →
    Outcome s (.delete kind key propagation) s'
  | remove {kind : Kind} {key : Key} {propagation : Propagation} {o : Object} {s' : Store} :
    propagation ≠ .orphan →
    s.find? { kind, key } = some o → o.metadata.finalizers = [] →
    s.Cascaded { kind, key } s' → Outcome s (.delete kind key propagation) s'
  /-- What an object owns is left without an owner. -/
  | leave {kind : Kind} {key : Key} {o : Object} (now : Instant) :
    s.find? { kind, key } = some o → o.metadata.finalizers = [] →
    Outcome s (.delete kind key .orphan) (s.advance.remove now .orphan { kind, key })

theorem update_outcome (hs : s.Sound) (now : Instant) (kind : Kind) (object : Object) :
    s.Outcome (.update kind object) (s.update now kind object).2 := by
  cases hfind : s.find? { kind, key := object.key } with
  | none =>
    rw [update_of_find?_none now hfind]
    exact .idle fun _ => rfl
  | some old =>
    by_cases hv : old.metadata.version = object.metadata.version
    · by_cases hgoes : old.metadata.isDeleting ∧ object.metadata.finalizers = []
      · exact .release hfind hv.symm hgoes.1 hgoes.2
          (cascaded_of_freed hs hfind hgoes.1 now rfl hv.symm hgoes.2)
      · have hheld : old.metadata.isDeleting → object.metadata.finalizers ≠ [] :=
          fun hdel hfin => hgoes ⟨hdel, hfin⟩
        have heq : s.update now kind object =
            (.ok (s.revised old object), s.withRevised { kind, key := object.key } old object) :=
          update_of_held now hfind rfl hv.symm hheld
        rw [heq]
        exact .revise hfind hv.symm
    · rw [update_of_version_ne now hfind hv]
      exact .idle fun _ => rfl

theorem delete_outcome (hs : s.Sound) (now : Instant) (kind : Kind) (key : Key)
    (propagation : Propagation) :
    s.Outcome (.delete kind key propagation) (s.delete now kind key propagation).2 := by
  cases hfind : s.find? { kind, key } with
  | none =>
    have hsame : (s.delete now kind key propagation).2 = s.advance := by
      simp only [delete, find?_advance, hfind]
    rw [hsame]
    exact .idle fun _ => rfl
  | some o =>
    by_cases hfin : o.metadata.finalizers = []
    · by_cases horphan : propagation = .orphan
      · subst horphan
        have heq : (s.delete now kind key .orphan).2 =
            s.advance.remove now .orphan { kind, key } := by
          simp only [delete, find?_advance, hfind, hfin, if_true]
        rw [heq]
        exact .leave now hfind hfin
      · exact .remove horphan hfind hfin (cascaded_of_free hs hfind hfin now horphan)
    · simp only [delete, find?_advance, hfind, if_neg hfin]
      split
      · exact .idle fun _ => rfl
      · apply Outcome.mark now (s.revision + 1) hfind hfin
        · rw [find?_touch, if_pos rfl, find?_advance, hfind]
          rfl
        · intro other hne
          rw [find?_touch, if_neg hne, find?_advance]

theorem serve_outcome (hs : s.Sound) (now : Instant) (r : StoreRequest) :
    s.Outcome r (s.serve now r).2 := by
  cases r with
  | get | list => exact .idle fun _ => rfl
  | create kind object =>
    cases hfind : s.find? { kind, key := object.key } with
    | none =>
      rw [serve, create_of_find?_none now hfind]
      exact .create now hfind
    | some old =>
      rw [serve, create_of_find?_some now hfind]
      exact .idle fun _ => rfl
  | update kind object => exact update_outcome hs now kind object
  | delete kind key propagation => exact delete_outcome hs now kind key propagation

/-- A deletion leaves an object that has no owner as it is, unless it is the one that is deleted. -/
theorem find?_delete_of_ownerless (hs : s.Sound) {o : Object} (found : s.find? slot = some o)
    (howner : o.metadata.owner = none) {kind : Kind} {key : Key} (hne : slot ≠ { kind, key })
    (now : Instant) : (s.delete now kind key .background).2.find? slot = some o := by
  have howns : ∀ x : Object, ¬ x.Owns o := by
    rintro x ⟨uid, -, h⟩
    rw [howner] at h
    cases h
  have houtcome := delete_outcome hs now kind key .background
  generalize (s.delete now kind key .background).2 = s' at houtcome ⊢
  cases houtcome with
  | idle hsame => exact (hsame slot).trans found
  | mark _ _ _ _ _ hother => exact (hother slot hne.symm).trans found
  | remove _ _ _ hcascaded =>
    refine hcascaded.unchanged slot o found (fun hdoomed => ?_) (.inl ?_)
    · cases hdoomed with
      | root => exact hne rfl
      | owned _ _ found' _ howned =>
        cases found.symm.trans found'
        exact howns _ howned
    · rintro ⟨_, x, -, -, howned⟩
      exact howns x howned

/-! ## What is found after a request -/

/-- Where an object that is stored after a request comes from. -/
inductive Outcome.Source (s : Store) (r : StoreRequest) (slot : Slot) : Object → Prop where
  | same {o : Object} : s.find? slot = some o → Source s r slot o
  | marked {o : Object} (time : Instant) (version : Nat) : s.find? slot = some o →
    Source s r slot (o.marked time version)
  | created {object : Object} (now : Instant) : r = .create slot.kind object →
    object.key = slot.key → s.find? slot = none → Source s r slot (s.newborn now object)
  | revised {old object : Object} : r = .update slot.kind object → object.key = slot.key →
    object.metadata.version = old.metadata.version → s.find? slot = some old →
    Source s r slot (s.revised old object)

theorem Outcome.source {r : StoreRequest} (h : s.Outcome r s')
    (hnot : ∀ kind key, r ≠ .delete kind key .orphan) {o' : Object}
    (found : s'.find? slot = some o') : Source s r slot o' := by
  have of_cascaded : ∀ {root}, s.Cascaded root s' → Source s r slot o' := by
    intro root hcascaded
    obtain ⟨o, hold, rfl | ⟨time, version, rfl⟩, -⟩ := hcascaded.find?_cases found
    · exact .same hold
    · exact .marked time version hold
  cases h with
  | idle hsame => exact .same ((hsame slot).symm.trans found)
  | create now hnone =>
    rw [find?_withNew] at found
    split at found
    · next heq =>
      cases found
      subst heq
      exact .created now rfl rfl hnone
    · exact .same found
  | revise hold hv =>
    rw [find?_withRevised] at found
    split at found
    · next heq =>
      cases found
      subst heq
      exact .revised rfl rfl hv hold
    · exact .same found
  | release _ _ _ _ hcascaded => exact of_cascaded hcascaded
  | @mark kind key _ o _ time version hold hfin hmarked hother =>
    by_cases heq : { kind, key } = slot
    · subst heq
      cases hmarked.symm.trans found
      exact .marked time version hold
    · exact .same ((hother slot heq).symm.trans found)
  | remove _ _ _ hcascaded => exact of_cascaded hcascaded
  | leave => exact (hnot _ _ rfl).elim

theorem marked_fades (o : Object) (time : Instant) (version : Nat) :
    o.Fades (o.marked time version) := ⟨rfl, rfl, rfl, rfl, .inl rfl⟩

/-- Where an object that is stored after a request comes from, which may also be one that leaves
objects without their owners. -/
inductive Outcome.Origin (s : Store) (r : StoreRequest) (slot : Slot) : Object → Prop where
  | faded {o o' : Object} : s.find? slot = some o → o.Fades o' → Origin s r slot o'
  | created {object : Object} (now : Instant) : r = .create slot.kind object →
    object.key = slot.key → s.find? slot = none → Origin s r slot (s.newborn now object)
  | revised {old object : Object} : r = .update slot.kind object → object.key = slot.key →
    object.metadata.version = old.metadata.version → s.find? slot = some old →
    Origin s r slot (s.revised old object)

theorem Outcome.origin {r : StoreRequest} (h : s.Outcome r s') {o' : Object}
    (found : s'.find? slot = some o') : Origin s r slot o' := by
  by_cases horphan : ∃ kind key, r = .delete kind key .orphan
  · obtain ⟨kind, key, rfl⟩ := horphan
    cases h with
    | idle hsame => exact .faded ((hsame slot).symm.trans found) (.refl _)
    | @mark _ _ _ o _ time version hold hfin hmarked hother =>
      by_cases heq : { kind, key } = slot
      · subst heq
        cases hmarked.symm.trans found
        exact .faded hold (marked_fades o time version)
      · exact .faded ((hother slot heq).symm.trans found) (.refl _)
    | remove hnot => exact absurd rfl hnot
    | leave now hold hfin =>
      have hleft := remove_deletions (s := s.advance) now .orphan hold hfin
      obtain ⟨o, hfind, hfades⟩ := hleft.fades_of_find? found
      exact .faded hfind hfades
  · have hnot : ∀ kind key, r ≠ .delete kind key .orphan :=
      fun kind key h => horphan ⟨kind, key, h⟩
    cases h.source hnot found with
    | same hold => exact .faded hold (.refl _)
    | @marked o time version hold => exact .faded hold (marked_fades o time version)
    | created now hr hkey hnone => exact .created now hr hkey hnone
    | revised hr hkey hv hold => exact .revised hr hkey hv hold

/-- When an object goes, everything that it owned is marked, as far as it is still stored. -/
theorem Outcome.bereft {r : StoreRequest} (h : s.Outcome r s')
    (hnot : ∀ kind key, r ≠ .delete kind key .orphan) {owner : Slot} (hx : s.find? owner = some x)
    (hgone : ∀ o, s'.find? owner = some o → o.metadata.uid ≠ x.metadata.uid) {o' : Object}
    (found : s'.find? slot = some o') (howns : x.Owns o') : o'.metadata.isDeleting := by
  have of_cascaded : ∀ {root}, s.Cascaded root s' → o'.metadata.isDeleting := by
    intro root hcascaded
    have hdoomed : s.Doomed root owner := by
      cases hafter : s'.find? owner with
      | none =>
        exact ((hcascaded.find?_eq_none_iff owner).1 hafter).resolve_left (hx ▸ nofun)
      | some x' =>
        obtain ⟨o, hold, hkept, -⟩ := hcascaded.find?_cases hafter
        cases hx.symm.trans hold
        rcases hkept with rfl | ⟨time, version, rfl⟩
        · exact (hgone _ hafter rfl).elim
        · exact (hgone _ hafter rfl).elim
    obtain ⟨o, hold, hkept, hmarked⟩ := hcascaded.find?_cases found
    refine hmarked ⟨owner, x, hdoomed, hx, ?_⟩
    rcases hkept with rfl | ⟨time, version, rfl⟩
    · exact howns
    · exact howns
  cases h with
  | idle hsame => exact (hgone x ((hsame owner).trans hx) rfl).elim
  | @create kind object now hnone =>
    refine (hgone x ?_ rfl).elim
    rw [find?_withNew, if_neg, hx]
    intro heq
    cases (heq ▸ hnone).symm.trans hx
  | @revise kind old object hold hv =>
    by_cases heq : { kind, key := object.key } = owner
    · subst heq
      cases hold.symm.trans hx
      exact (hgone _ ((find?_withRevised ..).trans (if_pos rfl)) rfl).elim
    · exact (hgone x ((find?_withRevised ..).trans ((if_neg heq).trans hx)) rfl).elim
  | release _ _ _ _ hcascaded => exact of_cascaded hcascaded
  | @mark kind key _ o _ time version hold hfin hmarked hother =>
    by_cases heq : { kind, key } = owner
    · subst heq
      cases hold.symm.trans hx
      exact (hgone _ hmarked rfl).elim
    · exact (hgone x ((hother owner heq).trans hx) rfl).elim
  | remove _ _ _ hcascaded => exact of_cascaded hcascaded
  | leave => exact (hnot _ _ rfl).elim

end Store
end CampaignControl
