import CampaignControl.Proofs.Store.Outcome

/-!
# The propagation of a removal

What is to become of the objects that an object owns is said when its deletion is requested
(`Store.Honours`), and a removal that follows at once does as it was told. An object with finalizers
is only marked then. The mark does not tell the propagation, so that the removal that comes with a
later change cascades whatever had been asked for: a request to leave the objects alone is kept only
if there are none (`Store.propagation_on_removal`).
-/

namespace CampaignControl

/-- An object that has lost its owner. -/
def Object.disowned (o : Object) (version : Nat) : Object :=
  { o with metadata := { o.metadata with owner := none, version } }

/-- What a propagation lets become of an object whose owner is removed. -/
def Propagation.Allows (o : Object) (after : Option Object) : Propagation → Prop
  | .orphan => ∃ version, after = some (o.disowned version)
  | .background | .foreground => ∀ o', after = some o' → o'.metadata.isDeleting

namespace Store

variable {s s' : Store} {slot : Slot} {x : Object} {propagation : Propagation}

/-- The object of a slot has gone, and with what it owned the propagation has been kept. -/
structure Honours (propagation : Propagation) (slot : Slot) (s s' : Store) : Prop where
  gone : s'.find? slot = none
  owned : ∀ {x other o}, s.find? slot = some x → other ≠ slot → s.find? other = some o →
    x.Owns o → propagation.Allows o (s'.find? other)

/-! ## Removals at once -/

theorem find?_disown_of_not_mem {slots : List Slot} (h : slot ∉ slots) :
    (s.disown slots).find? slot = s.find? slot := by
  induction slots generalizing s with
  | nil => rfl
  | cons other rest ih =>
    obtain ⟨hne, hrest⟩ := not_or.1 (List.mem_cons.not.1 h)
    apply (ih hrest).trans
    rw [find?_touch, if_neg (Ne.symm hne), find?_advance]

theorem find?_disown_of_mem {slots : List Slot} (h : slot ∈ slots) {o : Object}
    (found : s.find? slot = some o) :
    ∃ version, (s.disown slots).find? slot = some (o.disowned version) := by
  induction slots generalizing s o with
  | nil => cases h
  | cons other rest ih =>
    by_cases heq : other = slot
    · have hfirst : (s.advance.touch other fun m => { m with owner := none }).find? slot =
          some (o.disowned (s.revision + 1)) := by
        rw [find?_touch, if_pos heq, find?_advance, found]
        rfl
      by_cases hagain : slot ∈ rest
      · obtain ⟨version, hfound⟩ := ih hagain hfirst
        exact ⟨version, hfound⟩
      · exact ⟨_, (find?_disown_of_not_mem hagain).trans hfirst⟩
    · apply ih ((List.mem_cons.1 h).resolve_left (Ne.symm heq))
      rw [find?_touch, if_neg heq, find?_advance, found]

theorem honours_of_orphan (hs : s.Sound) (found : s.find? slot = some x) (now : Instant) :
    s.Honours .orphan slot (s.remove now .orphan slot) := by
  have hremove : s.remove now .orphan slot =
      (s.drop slot).disown ((s.drop slot).ownedBy x.metadata.uid) := by
    unfold Store.remove
    rw [found]
  refine ⟨(drop_deletions_remove now .orphan found).find?_none ?_, ?_⟩
  · rw [find?_drop, if_pos rfl]
  intro x' other o found' hne hother howns
  rw [found] at found'
  cases found'
  obtain ⟨uid, huid, howner⟩ := howns
  have hleft : (s.drop slot).find? other = some o := by
    rw [find?_drop, if_neg (Ne.symm hne), hother]
  rw [hremove]
  exact find?_disown_of_mem
    ((mem_ownedBy (hs.ascending.erase slot)).2 ⟨o, hleft, uid, huid, howner⟩) hleft

/-- Objects that are not owned by what is removed are left as they are. -/
theorem find?_remove_orphan (hs : s.Sound) (found : s.find? slot = some x) (now : Instant)
    {other : Slot} {o : Object} (hne : other ≠ slot) (hother : s.find? other = some o)
    (hnot : ¬ x.Owns o) : (s.remove now .orphan slot).find? other = some o := by
  have hleft : (s.drop slot).find? other = some o := by
    rw [find?_drop, if_neg (Ne.symm hne), hother]
  have hkept : other ∉ (s.drop slot).ownedBy x.metadata.uid := by
    rw [mem_ownedBy (hs.ascending.erase slot)]
    rintro ⟨o', hfind, uid, huid, howner⟩
    cases hleft.symm.trans hfind
    exact hnot ⟨uid, huid, howner⟩
  have hremove : s.remove now .orphan slot =
      (s.drop slot).disown ((s.drop slot).ownedBy x.metadata.uid) := by
    unfold Store.remove
    rw [found]
  rw [hremove, find?_disown_of_not_mem hkept, hleft]

theorem Cascaded.honours (h : s.Cascaded slot s') : s.Honours .background slot s' := by
  refine ⟨(h.find?_eq_none_iff slot).2 (.inr .root), ?_⟩
  intro x other o found _ hother howns o' found'
  obtain ⟨o₁, hold, -, hmarked⟩ := h.find?_cases found'
  cases hold.symm.trans hother
  exact hmarked ⟨slot, x, .root, found, howns⟩

/-- What a cascade leaves keeps its owner. -/
theorem Cascaded.owner_eq (h : s.Cascaded slot s') {other : Slot} {o o' : Object}
    (hold : s.find? other = some o) (found : s'.find? other = some o') :
    o'.metadata.owner = o.metadata.owner := by
  obtain ⟨o₁, hold₁, rfl | ⟨time, version, rfl⟩, -⟩ := h.find?_cases found
  · cases hold₁.symm.trans hold
    rfl
  · cases hold₁.symm.trans hold
    rfl

/-! ## Removals that had to wait -/

/-- Nothing but a change of an object takes it from its slot while it is held. The removal is then a
cascade, whatever the propagation was. -/
theorem cascaded_of_held (hs : s.Intact) {o : Object} (found : s.find? slot = some o)
    (hdel : o.metadata.isDeleting) (now : Instant) (r : StoreRequest)
    (hgone : (s.serve now r).2.find? slot = none) : s.Cascaded slot (s.serve now r).2 := by
  have hfin : o.metadata.finalizers ≠ [] := hs.held slot o found hdel
  -- what is held can only be the root of a cascade
  have hroot : ∀ {root}, s.Cascaded root (s.serve now r).2 → root = slot := by
    intro root hcascaded
    cases ((hcascaded.find?_eq_none_iff slot).1 hgone).resolve_left (found ▸ nofun) with
    | root => rfl
    | owned _ _ found' hfree =>
      cases found.symm.trans found'
      exact absurd hfree hfin
  have hout := serve_outcome hs.toSound now r
  generalize (s.serve now r).2 = s' at hgone hroot hout ⊢
  cases hout with
  | idle hsame => cases (hsame slot).symm.trans hgone ▸ found
  | create now hnone =>
    rw [find?_withNew] at hgone
    split at hgone
    · cases hgone
    · cases hgone ▸ found
  | revise hold hv =>
    rw [find?_withRevised] at hgone
    split at hgone
    · cases hgone
    · cases hgone ▸ found
  | release hold hv hdel hfree hcascaded => exact hroot hcascaded ▸ hcascaded
  | @mark kind key _ marked _ time version hold hheld hmarked hother =>
    by_cases heq : { kind, key } = slot
    · rw [heq, hgone] at hmarked
      cases hmarked
    · cases (hother slot heq).symm.trans hgone ▸ found
  | remove hnot hold hfree hcascaded => exact hroot hcascaded ▸ hcascaded
  | leave now' hold hfree =>
    obtain ⟨o', found', -⟩ := (remove_deletions (s := s.advance) now' .orphan hold
      hfree).fades_of_finalizers found hfin
    cases hgone.symm.trans found'

/-- A cascade does as a propagation says, except that it leaves nothing behind without an owner. -/
theorem Cascaded.honours_iff (h : s.Cascaded slot s') (found : s.find? slot = some x) :
    s.Honours propagation slot s' ↔
      (propagation = .orphan → ∀ other o, s.find? other = some o → x.Owns o → other = slot) := by
  constructor
  · rintro hkept rfl other o hother howns
    by_contra hne
    obtain ⟨version, hfound⟩ := hkept.owned found hne hother howns
    obtain ⟨uid, -, howner⟩ := howns
    rw [← h.owner_eq hother hfound] at howner
    cases howner
  · intro hnone
    refine ⟨h.honours.gone, ?_⟩
    intro x' other o found' hne hother howns
    cases propagation with
    | orphan =>
      cases found.symm.trans found'
      exact absurd (hnone rfl other o hother howns) hne
    | background => exact h.honours.owned found' hne hother howns
    | foreground => exact h.honours.owned found' hne hother howns

/-- The deletion of an object that is held marks it. -/
theorem delete_of_finalizers (now : Instant) (found : s.find? slot = some x)
    (hfin : x.metadata.finalizers ≠ []) (propagation : Propagation) :
    ∃ x', (s.delete now slot.kind slot.key propagation).2.find? slot = some x' ∧
      x'.metadata.isDeleting := by
  have found' : s.advance.find? { kind := slot.kind, key := slot.key } = some x := found
  unfold delete
  simp only [found', if_neg hfin]
  split
  · next hdel => exact ⟨x, found, hdel⟩
  · exact ⟨x.marked now (s.revision + 1), by rw [find?_touch, if_pos rfl, found']; rfl, rfl⟩

/-- **What becomes of the objects that a removed object owns.** The deletion of an object without
finalizers keeps the propagation. The deletion of an object with finalizers marks it, and whichever
later request removes it does so as a background deletion, no matter what had been asked for. What
it owns is left without an owner in no case, so that a request to do this is kept only if it owns
nothing by then. -/
theorem propagation_on_removal (hs : s.Reached) (found : s.find? slot = some x) (now : Instant)
    (propagation : Propagation) :
    let s₁ := (s.delete now slot.kind slot.key propagation).2
    (x.metadata.finalizers = [] → s.Honours propagation slot s₁) ∧
    (x.metadata.finalizers ≠ [] → (s₁.find? slot).any (·.metadata.isDeleting) ∧
      ∀ calls now' r, (∀ n ≤ calls.length, ((s₁.serveAll (calls.take n)).find? slot).isSome) →
        ((s₁.serveAll calls).serve now' r).2.find? slot = none →
        let t := s₁.serveAll calls
        let t' := (t.serve now' r).2
        t.Honours .background slot t' ∧
        (t.Honours propagation slot t' ↔ (propagation = .orphan → ∀ other x' o,
          t.find? slot = some x' → t.find? other = some o → x'.Owns o → other = slot))) := by
  intro s₁
  have hintact : s₁.Intact := hs.intact.serve now (.delete slot.kind slot.key propagation)
  refine ⟨fun hfin => ?_, fun hfin => ?_⟩
  · cases propagation with
    | orphan =>
      have heq : s₁ = s.advance.remove now .orphan slot := by
        have found' : s.advance.find? { kind := slot.kind, key := slot.key } = some x := found
        simp only [s₁, delete, found', hfin, if_true]
      have hsound : s.advance.Sound := hs.intact.toSound.deletion .advance
      have hkept := honours_of_orphan hsound found now
      exact ⟨heq ▸ hkept.gone, fun found' hne hother howns =>
        heq ▸ hkept.owned found' hne hother howns⟩
    | background => exact (cascaded_of_free hs.intact.toSound found hfin now (by decide)).honours
    | foreground =>
      have hnot : Propagation.foreground ≠ .orphan := by decide
      have hcascaded := cascaded_of_free hs.intact.toSound found hfin now hnot
      exact (hcascaded.honours_iff found).2 fun heq => absurd heq hnot
  · obtain ⟨x₁, found₁, hdel₁⟩ := delete_of_finalizers now found hfin propagation
    refine ⟨by rw [found₁]; exact hdel₁, fun calls now' r hstays hgone => ?_⟩
    intro t t'
    obtain ⟨x', found', hpersists⟩ := serveAll_persists found₁ hstays
    have hdel' : x'.metadata.isDeleting := by
      obtain ⟨time, htime⟩ := Option.isSome_iff_exists.1 hdel₁
      exact Option.isSome_iff_exists.2 ⟨time, hpersists.deletedAt time htime⟩
    have hcascaded := cascaded_of_held (hintact.serveAll calls) found' hdel' now' r hgone
    refine ⟨hcascaded.honours, (hcascaded.honours_iff found').trans ?_⟩
    refine forall_congr' fun _ => forall_congr' fun other => ⟨fun h x'' o found'' => ?_,
      fun h o => h x' o found'⟩
    cases found'.symm.trans found''
    exact h o

/-! ## An object that is held and owns another one -/

/-- The first object owns the second one and is held. -/
def heldOwner : Store :=
  ({} : Store).serveAll
    [(.epoch, .create .workUnit (sampleObject "first" none ["hold"])),
      (.epoch, .create .workUnit (sampleObject "second" (some 1) []))]

/-- The first object has been marked, and the second one is to be left without an owner. -/
def heldOwnerMarked : Store :=
  (heldOwner.delete .epoch .workUnit ⟨"fleet", "first"⟩ .orphan).2

/-- The change that takes the finalizer from the first object after its deletion. -/
def release : Object :=
  let freed := sampleObject "first" none []
  { freed with metadata := { freed.metadata with version := 3 } }

theorem cascaded_release : heldOwnerMarked.Cascaded (sampleSlot "first")
    (heldOwnerMarked.update .epoch .workUnit release).2 := by
  have hreached : heldOwner.Reached := ⟨_, rfl⟩
  obtain ⟨first, hfirst, hdel⟩ : ∃ o, heldOwnerMarked.find? (sampleSlot "first") = some o ∧
      o.metadata.isDeleting ∧ o.metadata.version = 3 := ⟨_, rfl, rfl, rfl⟩
  have hsound := (hreached.serve .epoch (.delete .workUnit ⟨"fleet", "first"⟩ .orphan)).intact
  exact cascaded_of_freed hsound.toSound hfirst hdel.1 .epoch rfl hdel.2.symm rfl

/-- The second object is removed with the first one, whose deletion had been requested with the
propagation that leaves it alone. -/
theorem orphan_lost :
    heldOwner.Reached ∧ (heldOwner.find? (sampleSlot "second")).isSome ∧
      heldOwnerMarked = (heldOwner.serve .epoch (.delete .workUnit ⟨"fleet", "first"⟩ .orphan)).2 ∧
      ∃ s', (heldOwnerMarked.serve .epoch (.update .workUnit release)).2 = s' ∧
        s'.find? (sampleSlot "first") = none ∧ s'.find? (sampleSlot "second") = none ∧
        ¬ heldOwnerMarked.Honours .orphan (sampleSlot "first") s' := by
  obtain ⟨first, second, hfirst, hsecond, howns, hfree⟩ : ∃ o o',
      heldOwnerMarked.find? (sampleSlot "first") = some o ∧
      heldOwnerMarked.find? (sampleSlot "second") = some o' ∧ o.Owns o' ∧
      o'.metadata.finalizers = [] := ⟨_, _, rfl, rfl, ⟨.issued 1, rfl, rfl⟩, rfl⟩
  have hcascaded := cascaded_release
  have hgone : (heldOwnerMarked.update .epoch .workUnit release).2.find? (sampleSlot "second") =
      none :=
    (hcascaded.find?_eq_none_iff _).2 (.inr (.owned .root hfirst hsecond hfree howns))
  refine ⟨⟨_, rfl⟩, rfl, rfl, _, rfl, hcascaded.honours.gone, hgone, fun hkept => ?_⟩
  obtain ⟨version, hfound⟩ := hkept.owned hfirst (by decide) hsecond howns
  rw [Store.serve, hgone] at hfound
  cases hfound

/-- The removal keeps a propagation that had not been asked for. -/
theorem propagation_on_removal_sample :
    heldOwner.Reached ∧ (heldOwner.find? (sampleSlot "first")).isSome ∧
      heldOwnerMarked.Honours .background (sampleSlot "first")
        (heldOwnerMarked.serve .epoch (.update .workUnit release)).2 := by
  have hreached : heldOwner.Reached := ⟨_, rfl⟩
  obtain ⟨first, hfirst, hheld⟩ : ∃ o, heldOwner.find? (sampleSlot "first") = some o ∧
      o.metadata.finalizers ≠ [] := ⟨_, rfl, nofun⟩
  obtain ⟨-, hlater⟩ := (propagation_on_removal hreached hfirst .epoch .orphan).2 hheld
  refine ⟨hreached, rfl, (hlater [] .epoch (.update .workUnit release) (fun n hn => ?_)
    cascaded_release.honours.gone).1⟩
  cases Nat.le_zero.1 hn
  rfl

end Store
end CampaignControl
