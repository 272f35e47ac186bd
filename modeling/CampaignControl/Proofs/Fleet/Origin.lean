import CampaignControl.Proofs.Fleet

/-!
# Where work units and documents come from

A work unit that is stored after a request was stored before, or an admission pass has created it.
Whoever deletes what, and whether or not objects are left without their owners, a work unit changes
in two ways only: deletions fade it, and a lifecycle pass that has read it as it is writes it back
(`Fleet.UnitOrigin`, `Fleet.unit_origin`). A configuration document gets its batches from an
admission pass that has cut them, and is else at most faded (`Fleet.DocumentOrigin`,
`Fleet.document_origin`).
-/

namespace CampaignControl
namespace Fleet

open Lifecycle (unitSlot Retains)

variable {job : Job} {past : List Exchange} {s s' : Store} {k : Key} {o' : Object}
  {r : StoreRequest}

/-- Where a work unit comes from that is stored after a request of a job. -/
inductive UnitOrigin (job : Job) (past : List Exchange) (s : Store) (r : StoreRequest) (k : Key) :
    Object → Prop where
  | faded {o o' : Object} : s.find? (unitSlot k) = some o → o.Fades o' →
    UnitOrigin job past s r k o'
  | changed {o : Object} {current changed : WorkUnit} : s.find? (unitSlot k) = some o →
    Resource.decode o = .ok current → Retains current changed → changed.spec = current.spec →
    UnitOrigin job past s r k (s.revised o (Resource.encode changed))
  | created {key : Key} {object : Object} (now : Instant) : s.find? (unitSlot k) = none →
    r = .create .workUnit object → job.Admits key →
    Admission.Asks key past (.store (.create .workUnit object)) → object.key = k →
    UnitOrigin job past s r k (s.newborn now object)

/-- Work units are created by admission passes. -/
theorem exists_admits {object : Object} (h : Asks job past (.store (.create .workUnit object))) :
    ∃ key, job.Admits key ∧ Admission.Asks key past (.store (.create .workUnit object)) := by
  cases job with
  | report => cases h
  | pass job =>
    cases job with
    | admission _ key => exact ⟨key, rfl, h⟩
    | lifecycle => cases h

/-- Work units are written back by lifecycle passes. -/
theorem exists_changed {object old : Object} (hpast : Genuine past s)
    (h : Asks job past (.store (.update .workUnit object)))
    (hold : s.find? (unitSlot object.key) = some old)
    (hv : object.metadata.version = old.metadata.version) :
    ∃ current changed : WorkUnit, Resource.decode old = .ok current ∧ Retains current changed ∧
      changed.spec = current.spec ∧ object = Resource.encode changed := by
  cases job with
  | report => cases h
  | pass job =>
    cases job with
    | admission => cases h
    | lifecycle => exact (h.exists_stored hpast hold hv).2

theorem unit_origin (hpast : Genuine past s) (hasks : Asks job past (.store r))
    (hout : s.Outcome r s') (found : s'.find? (unitSlot k) = some o') :
    UnitOrigin job past s r k o' := by
  cases hout.origin found with
  | faded hold hfades => exact .faded hold hfades
  | created now hr hkey hnone =>
    subst hr
    obtain ⟨key, hadmits, hasks⟩ := exists_admits hasks
    exact .created now hnone rfl hadmits hasks hkey
  | revised hr hkey hv hold =>
    subst hr
    obtain ⟨current, changed, hdecode, hretains, hspec, rfl⟩ :=
      exists_changed hpast hasks (hkey.symm ▸ hold) hv
    exact .changed hold hdecode hretains hspec

/-- A request from outside does nothing but fade work units. -/
theorem unit_faded (hr : Controller.IsOutside r) (hout : s.Outcome r s')
    (found : s'.find? (unitSlot k) = some o') :
    ∃ o, s.find? (unitSlot k) = some o ∧ o.Fades o' := by
  cases hout.origin found with
  | faded hold hfades => exact ⟨_, hold, hfades⟩
  | created now heq =>
    subst heq
    rcases hr with h | h <;> cases h
  | revised heq =>
    subst heq
    rcases hr with h | h | ⟨h, -⟩ <;> cases h

/-! ## Documents -/

/-- Where a configuration document comes from that is stored after a request of a job. -/
inductive DocumentOrigin (job : Job) (past : List Exchange) (s : Store) (slot : Slot) :
    Object → Prop where
  | faded {o o' : Object} : s.find? slot = some o → o.Fades o' → DocumentOrigin job past s slot o'
  | written {key : Key} {campaign : Campaign} {batches : List Batch} {d : ConfigDocument}
    {o' : Object} : job.Admits key → Admission.Knows key campaign past →
    Admission.Cuts campaign batches past → Resource.decode o' = .ok d →
    d.batches = batches.map Dispatch.document → DocumentOrigin job past s slot o'

theorem document_origin {slot : Slot} (hkind : slot.kind = .configDocument)
    (hasks : Asks job past (.store r)) (hout : s.Outcome r s')
    (found : s'.find? slot = some o') : DocumentOrigin job past s slot o' := by
  have hadmits : ∀ {object : Object}, r = .create slot.kind object ∨ r = .update slot.kind object →
      ∃ key, job.Admits key ∧ Admission.Asks key past (.store r) := by
    intro object hr
    rw [hkind] at hr
    cases job with
    | report => rcases hr with rfl | rfl <;> cases hasks
    | pass job =>
      cases job with
      | admission _ key => exact ⟨key, rfl, hasks⟩
      | lifecycle => rcases hr with rfl | rfl <;> cases hasks
  cases hout.origin found with
  | faded hold hfades => exact .faded hold hfades
  | created now hr =>
    obtain ⟨key, hadmits, hasks⟩ := hadmits (.inl hr)
    rw [hr, hkind] at hasks
    cases hasks with
    | @createDocument campaign batches hknows hcuts =>
      exact .written hadmits hknows hcuts
        (Resource.decode_stored _ (Admission.document campaign batches)) rfl
  | revised hr =>
    obtain ⟨key, hadmits, hasks⟩ := hadmits (.inr hr)
    rw [hr, hkind] at hasks
    cases hasks with
    | @refresh campaign batches _ _ _ changed hknows hcuts _ _ hchange =>
      exact .written hadmits hknows hcuts (Resource.decode_stored _ changed)
        (Admission.batches_refresh hchange)

/-- A request of anybody does nothing but fade what is not a campaign. -/
theorem faded_of_isOpen {slot : Slot} (hkind : slot.kind ≠ .campaign) (hr : IsOpen r)
    (hout : s.Outcome r s') (found : s'.find? slot = some o') :
    ∃ o, s.find? slot = some o ∧ o.Fades o' := by
  cases hout.origin found with
  | faded hold hfades => exact ⟨_, hold, hfades⟩
  | created now heq =>
    subst heq
    exact absurd hr.1 hkind
  | revised heq =>
    subst heq
    exact absurd hr.1 hkind

end Fleet
end CampaignControl
