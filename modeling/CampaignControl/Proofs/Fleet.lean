import CampaignControl.Proofs.Admission.Requests
import CampaignControl.Proofs.Lifecycle.Bond
import CampaignControl.Proofs.Lifecycle.Requests
import CampaignControl.Rehearsal.Substrate

/-!
# Fleets

The passes over any number of campaigns and their work units, the substrate that reports on the
executions, and the users, who create and change campaigns and perhaps delete objects
(`Fleet.rules`). Executions are in the custody of work units as they are in other worlds
(`Fleet.custody`). Every object descends from a campaign, directly or through a work unit, and its
key is the one that has been made for it from the name of this campaign (`Fleet.Descends`,
`Fleet.descends`).
-/

namespace CampaignControl
namespace Fleet

open Admission (campaignSlot batchesSlot)
open Lifecycle (unitSlot executionSlot Custody Bound bondContract)

/-! ## Jobs and rules -/

inductive Job where
  | pass (job : Controller.Job)
  /-- The substrate changes the status of an execution. -/
  | report (key : Key) (change : Execution.Status → Execution.Status)

def repertoire : Repertoire where
  Job := Job
  Result
    | .pass job => Controller.repertoire.Result job
    | .report .. => Except Error (Option Execution)
  program
    | .pass job => Controller.repertoire.program job
    | .report key change => (Substrate.report? key change).run

/-- Whether a job is an admission pass over the campaign at a key. -/
def Job.Admits (key : Key) : Job → Prop
  | .pass job => job.Admits key
  | .report .. => False

instance (key : Key) : (job : repertoire.Job) → Decidable (Job.Admits key job)
  | .pass job => inferInstanceAs (Decidable (job.Admits key))
  | .report .. => .isFalse id

/-- What users request. They create campaigns at some keys, and change them. They may or may not
delete objects, but what these own is deleted with them. No campaign is owned by another object. -/
def IsUser (named : Key → Prop) (deletes : Prop) : StoreRequest → Prop
  | .get .. | .list .. => True
  | .create kind object => kind = .campaign ∧ named object.key ∧ object.metadata.owner = none
  | .update kind object => kind = .campaign ∧ object.metadata.owner = none
  | .delete _ _ propagation => deletes ∧ propagation ≠ .orphan

/-- What anybody may request: objects are deleted in any way, and campaigns are created and changed
that are not owned by another object. -/
def IsOpen : StoreRequest → Prop
  | .get .. | .list .. | .delete .. => True
  | .create kind object | .update kind object => kind = .campaign ∧ object.metadata.owner = none

/-- Lifecycle passes over one work unit follow each other. -/
def Excludes : Job → Job → Prop
  | .pass job, .pass job' => ∃ key, job.Follows key ∧ job'.Follows key
  | _, _ => False

def rules (named : Key → Prop) (deletes : Prop) : Rules repertoire where
  excludes := Excludes
  outside := IsUser named deletes

/-- Where these requests come from outside. -/
def rulesFor (outside : StoreRequest → Prop) : Rules repertoire where
  excludes := Excludes
  outside := outside

/-- The same with any other jobs that wait for each other, or none. -/
def rulesWith (excludes : Job → Job → Prop) (named : Key → Prop) (deletes : Prop) :
    Rules repertoire where
  excludes := excludes
  outside := IsUser named deletes

instance {named : Key → Prop} [DecidablePred named] {deletes : Prop} [Decidable deletes] :
    DecidablePred (rules named deletes).outside
  | .get .. | .list .. => .isTrue trivial
  | .create kind object => inferInstanceAs (Decidable (kind = .campaign ∧ named object.key ∧
      object.metadata.owner = none))
  | .update kind object =>
    inferInstanceAs (Decidable (kind = .campaign ∧ object.metadata.owner = none))
  | .delete _ _ propagation => inferInstanceAs (Decidable (deletes ∧ propagation ≠ .orphan))

instance {named : Key → Prop} {deletes : Prop} : DecidableRel (rules named deletes).excludes
  | .pass job, .pass job' =>
    (inferInstance : DecidableRel Lifecycle.custodyRules.excludes) job job'
  | .pass _, .report .. | .report .., .pass _ | .report .., .report .. => .isFalse id

instance {named : Key → Prop} {deletes : Prop} : DecidablePred (rules named deletes).during :=
  fun _ => .isTrue trivial

variable {excludes : Job → Job → Prop} {named : Key → Prop} {deletes : Prop}
  {w w' : World repertoire} {slot : Slot}
  {o o' : Object} {past : List Exchange}

/-! ## Custody -/

/-- A report disturbs no lifecycle pass, like an admission pass. -/
def contract : Job → Contract (fun _ => True) Bound
  | .pass job => bondContract job
  | .report .. => bondContract (.admission {} default .epoch)

theorem report_keeps (key : Key) (change : Execution.Status → Execution.Status) {s : Store} :
    (Substrate.report? key change).Keeps (contract (.report key change)) (fun _ _ => True) s := by
  unfold Substrate.report?
  apply Pass.Keeps.bind
  apply Pass.Keeps.modify
  · intro e changed note h
    cases h
    exact ⟨rfl, rfl⟩
  · exact fun _ _ => .pure trivial
  · exact fun _ _ _ _ => .pure trivial
  · intro s₁ object current changed note hlater hfind hdecode hchange
    have hsame : changed.metadata.finalizers = [] ∧
        changed.metadata.owner = object.metadata.owner := by
      have hmetadata : current.metadata = object.metadata := Resource.metadata_of_decode hdecode
      cases hchange
      exact ⟨(congrArg Metadata.finalizers hmetadata).trans
        (hlater.inv.custody.guarded hfind).1, congrArg Metadata.owner hmetadata⟩
    have hne : Kind.execution ≠ .workUnit := nofun
    have hkept :=
      hlater.inv.custody.withRevised (Resource.encode changed) hne hfind fun _ => hsame.1
    exact ⟨hlater.inv.withRevised (Resource.encode changed) hne hfind fun _ => hsame,
      (hkept.guar (.admission {} default .epoch)).2, fun _ _ => .pure trivial⟩

theorem IsOpen.isOutside {r : StoreRequest} (h : IsOpen r) : Controller.IsOutside r := by
  cases r with
  | get | list | delete => trivial
  | create kind object => exact .inl h.1
  | update kind object => exact .inl h.1

theorem IsUser.isOpen {r : StoreRequest} (h : IsUser named deletes r) : IsOpen r := by
  cases r with
  | get | list | delete => trivial
  | create kind object => exact ⟨h.1, h.2.2⟩
  | update kind object => exact h

theorem IsOpen.bound {r : StoreRequest} (h : IsOpen r) {s : Store} (hs : Bound s)
    (now : Instant) : Bound (s.serve now r).2 := by
  cases r with
  | get | list => exact hs
  | create kind object =>
    obtain ⟨rfl, -⟩ := h
    rcases Store.create_cases now .campaign object s with heq | ⟨-, heq⟩
    · rwa [Store.serve, heq]
    · rw [Store.serve, heq]
      exact hs.withNew now object (.inl rfl)
  | update kind object =>
    obtain ⟨rfl, -⟩ := h
    rcases Store.update_cases now .campaign object s with heq | ⟨old, hold, hdel⟩
    · rwa [Store.serve, heq]
    · have hne : Kind.campaign ≠ .workUnit ∧ Kind.campaign ≠ .execution := by decide
      exact (hs.withRevised object hne.1 hold fun h => absurd h hne.2).deletions hdel
  | delete kind key propagation => exact hs.deletions (Store.delete_deletions ..)

/-- Whatever is requested by anybody, executions are in the custody of their owners. -/
theorem bound_upheld {outside : StoreRequest → Prop} (houtside : ∀ r, outside r → IsOpen r) :
    (rulesFor outside).Upheld Bound (fun job => (contract job).guar) (Task.Keeps contract) := by
  refine .of_contracts (rulesFor outside) contract .empty ?_ ?_ ?_
  · intro job s hs hduring hinv
    cases job with
    | pass job =>
      cases job with
      | admission settings target now =>
        exact (Lifecycle.bondOutline_admission settings target now).reconcile_keeps settings now
      | lifecycle settings target now =>
        exact (Lifecycle.bondOutline_lifecycle settings target now).reconcile_keeps settings now
    | report key change =>
      exact Program.Keeps.mono (report_keeps key change) fun _ _ _ => trivial
  · intro job job' s s' hexcludes hguar
    cases job' with
    | report => exact fun key hfollows => hfollows.elim
    | pass job' =>
      intro key hfollows
      cases job with
      | report => exact hguar.2 key id
      | pass job =>
        apply hguar.2 key
        intro hfollows'
        rcases hexcludes with h | h
        · exact h ⟨key, hfollows', hfollows⟩
        · exact h ⟨key, hfollows, hfollows'⟩
  · intro now r s hr hs hduring hinv
    have hopen := houtside r hr
    have hkept := hinv.custody.serve hs hopen.isOutside now
    refine ⟨hopen.bound hinv now, ?_⟩
    intro job
    cases job <;> exact fun key _ => hkept.undisturbed key

theorem custody (hw : (rules named deletes).Reachable w) : Custody w.store := by
  have hupheld := bound_upheld fun r (h : IsUser named deletes r) => h.isOpen
  exact (hupheld.holds hw).1.custody

/-! ## What is requested -/

/-- What is requested by the substrate: it writes an execution back as it has read it, but for its
status. -/
inductive Reports (past : List Exchange) : Request → Prop where
  | get (k : Key) : Reports past (.store (.get .execution k))
  | change {k : Key} {s : Store} {object : Object} {current : Execution}
    (status : Execution.Status) : .read (executionSlot k) object s ∈ past →
    Resource.decode object = .ok current →
    Reports past (.store (.update .execution (Resource.encode { current with status })))

/-- What a job requests. -/
def Asks : Job → List Exchange → Request → Prop
  | .pass (.admission _ key _) => Admission.Asks key
  | .pass (.lifecycle ..) => Lifecycle.Asks
  | .report .. => Reports

theorem report_heeds (key : Key) (change : Execution.Status → Execution.Status) :
    (Substrate.report? key change).Heeds Reports (fun _ _ => True) past := by
  unfold Substrate.report?
  apply Pass.Heeds.bind
  apply Pass.Heeds.modify
  · exact fun _ => .get _
  · intro past' s object current changed note _ hread hdecode hchange
    cases hchange
    exact .change _ hread hdecode
  · exact fun _ => .pure trivial
  · exact fun _ _ _ _ _ _ => .pure trivial
  · exact fun _ _ _ _ => .pure trivial

theorem program_heeds (job : repertoire.Job) :
    (repertoire.program job).Heeds (Asks job) (fun _ _ => True) [] := by
  cases job with
  | pass job =>
    cases job with
    | admission settings key now => exact Admission.reconcile_heeds settings now .nil
    | lifecycle settings key now => exact Lifecycle.reconcile_heeds settings now
  | report key change => exact Program.Heeds.mono (report_heeds key change) fun _ _ _ => trivial

/-- A request that is made of the store of a fleet. -/
abbrev Requested (named : Key → Prop) (deletes : Prop) : World repertoire → StoreRequest → Prop :=
  (rules named deletes).Requested Asks

/-- Whom a request comes from: a pass, the substrate, or somebody outside. -/
inductive Requester (outside : StoreRequest → Prop) (w : World repertoire) (r : StoreRequest) :
    Prop where
  | admission {t : Task repertoire} {key : Key} : t ∈ w.tasks → Genuine t.past w.store →
    Admission.Asks key t.past (.store r) → Requester outside w r
  | lifecycle {t : Task repertoire} : t ∈ w.tasks → Genuine t.past w.store →
    Lifecycle.Asks t.past (.store r) → Requester outside w r
  | substrate {t : Task repertoire} : t ∈ w.tasks → Genuine t.past w.store →
    Reports t.past (.store r) → Requester outside w r
  | outside : outside r → Requester outside w r

theorem exists_requester {rules : Rules repertoire} {r : StoreRequest}
    (h : rules.Requested Asks w r) : Requester rules.outside w r := by
  cases h with
  | outside hr => exact .outside hr
  | @own t _ ht hpast hasks =>
    cases hjob : t.job with
    | report =>
      rw [hjob] at hasks
      exact .substrate ht hpast hasks
    | pass job =>
      rw [hjob] at hasks
      cases job with
      | admission => exact .admission ht hpast hasks
      | lifecycle => exact .lifecycle ht hpast hasks

theorem Requested.requester {r : StoreRequest} (h : Requested named deletes w r) :
    Requester (IsUser named deletes) w r := exists_requester h

theorem Job.Admits.asks {key : Key} {job : Job} (h : job.Admits key) {r : Request}
    (hasks : Asks job past r) : Admission.Asks key past r := by
  cases job with
  | report => exact h.elim
  | pass job =>
    cases job with
    | lifecycle => exact h.elim
    | admission =>
      cases h
      exact hasks

/-- Nobody leaves objects without their owners. -/
theorem Requested.ne_orphan {r : StoreRequest} (h : Requested named deletes w r) (kind : Kind)
    (key : Key) : r ≠ .delete kind key .orphan := by
  rintro rfl
  cases h.requester with
  | admission _ _ hasks | lifecycle _ _ hasks | substrate _ _ hasks => cases hasks
  | outside huser => exact huser.2 rfl

/-- Work units are created, and configuration documents created and replaced, by admission passes
only. -/
theorem Requested.exists_admission {r : StoreRequest} (h : Requested named deletes w r)
    (hr : ∃ object, r = .create .configDocument object ∨ r = .create .workUnit object ∨
      r = .update .configDocument object) :
    ∃ t ∈ w.tasks, ∃ key, Admission.Asks key t.past (.store r) := by
  cases h.requester with
  | @admission t key ht _ hasks => exact ⟨t, ht, key, hasks⟩
  | lifecycle _ _ hasks | substrate _ _ hasks =>
    obtain ⟨object, rfl | rfl | rfl⟩ := hr <;> cases hasks
  | outside huser => obtain ⟨object, rfl | rfl | rfl⟩ := hr <;> cases huser.1

/-! ## Descent -/

/-- What an object descends from. The key of a configuration document or a work unit is the one
that has been made from the name of its campaign. -/
inductive Descends (named : Key → Prop) (w : World repertoire) : Slot → Object → Prop where
  | campaign {key : Key} {o : Object} : named key → o.metadata.owner = none →
    Descends named w (campaignSlot key) o
  | document {key : Key} {owner : Owner} {o : Object} : o.metadata.owner = some owner →
    owner.name = key.name → w.Met (campaignSlot key) owner.uid →
    Descends named w (batchesSlot key) o
  | unit {key : Key} {owner : Owner} {o : Object} {u : WorkUnit} : o.metadata.owner = some owner →
    owner.name = key.name → w.Met (campaignSlot key) owner.uid → Resource.decode o = .ok u →
    u.spec.campaign = key.name → u.spec.configDocument = Naming.configDocument key.name →
    Descends named w
      (unitSlot { space := key.space, name := Naming.workUnit key.name u.spec.batchIndex }) o
  | execution {key : Key} {owner : Owner} {o : Object} : o.metadata.owner = some owner →
    w.Met (unitSlot key) owner.uid → Descends named w (executionSlot key) o

theorem Descends.move (h : Descends named w slot o) {rules : Rules repertoire}
    (hmove : rules.Move w w') : Descends named w' slot o := by
  cases h with
  | campaign hnamed howner => exact .campaign hnamed howner
  | document howner hname hmet => exact .document howner hname (hmet.move hmove)
  | unit howner hname hmet hdecode hcampaign hdocument =>
    exact .unit howner hname (hmet.move hmove) hdecode hcampaign hdocument
  | execution howner hmet => exact .execution howner (hmet.move hmove)

/-- What a work unit is for, and who owns it, is in its key. -/
theorem Descends.of_unit {k : Key} (h : Descends named w (unitSlot k) o) :
    ∃ (owner : Owner) (u : WorkUnit), o.metadata.owner = some owner ∧
      w.Met (campaignSlot { space := k.space, name := owner.name }) owner.uid ∧
      Resource.decode o = .ok u ∧ u.spec.campaign = owner.name ∧
      u.spec.configDocument = Naming.configDocument owner.name ∧
      k.name = Naming.workUnit owner.name u.spec.batchIndex := by
  obtain ⟨slot, hslot⟩ : ∃ slot, slot = unitSlot k := ⟨_, rfl⟩
  rw [← hslot] at h
  cases h with
  | campaign | document | execution => cases hslot
  | @unit key owner _ u howner hname hmet hdecode hcampaign hdocument =>
    obtain rfl := congrArg Slot.key hslot
    rw [← hname] at hcampaign hdocument
    refine ⟨owner, u, howner, ?_, hdecode, hcampaign, hdocument, ?_⟩
    · rw [hname]
      exact hmet
    · rw [hname]

theorem Descends.of_campaign {k : Key} (h : Descends named w (campaignSlot k) o) : named k := by
  obtain ⟨slot, hslot⟩ : ∃ slot, slot = campaignSlot k := ⟨_, rfl⟩
  rw [← hslot] at h
  cases h with
  | campaign hnamed =>
    cases hslot
    exact hnamed
  | document | unit | execution => cases congrArg Slot.kind hslot

/-- An object that has been changed descends from the same campaign if it has kept its owner and, if
it is a work unit, its specification. -/
theorem Descends.change (h : Descends named w slot o)
    (howner : o'.metadata.owner = o.metadata.owner)
    (hspec : slot.kind = .workUnit → ∀ u : WorkUnit, Resource.decode o = .ok u →
      ∃ u' : WorkUnit, Resource.decode o' = .ok u' ∧ u'.spec = u.spec) :
    Descends named w slot o' := by
  cases h with
  | campaign hnamed hnone => exact .campaign hnamed (howner.trans hnone)
  | document hsome hname hmet => exact .document (howner.trans hsome) hname hmet
  | @unit key owner _ u hsome hname hmet hdecode hcampaign hdocument =>
    obtain ⟨u', hdecode', heq⟩ := hspec rfl u hdecode
    rw [← heq] at hcampaign hdocument ⊢
    exact .unit (howner.trans hsome) hname hmet hdecode' hcampaign hdocument
  | execution hsome hmet => exact .execution (howner.trans hsome) hmet

/-- The same contents are decoded to the same specification. -/
theorem exists_decode_of_body {u : WorkUnit} (hdecode : Resource.decode o = .ok u)
    (hbody : o'.body = o.body) :
    ∃ u' : WorkUnit, Resource.decode o' = .ok u' ∧ u'.spec = u.spec := by
  refine ⟨Resource.setMetadata o'.metadata u, ?_, rfl⟩
  rw [Resource.decode_eq_map hbody, hdecode]
  rfl

/-- A campaign that a pass knows has been met with its identity, by which it is an owner. -/
theorem exists_asOwner {t : Task repertoire} (ht : t ∈ w.tasks) (hpast : Genuine t.past w.store)
    {key : Key} {campaign : Campaign} (hknows : Admission.Knows key campaign t.past)
    (kind : String) :
    ∃ owner, campaign.metadata.asOwner kind = some owner ∧ owner.name = key.name ∧
      w.Met (campaignSlot key) owner.uid := by
  obtain ⟨e, he, o, hfind, hmetadata⟩ := hknows.exists_stored
  obtain ⟨n, -, huid⟩ := (hpast e he).sound.issued hfind
  refine ⟨⟨kind, key.name, .issued n⟩, ?_, rfl, t, ht, e, he, o, hfind, huid⟩
  rw [Metadata.asOwner, ← hmetadata, huid, hmetadata, ← hknows.1]
  rfl

/-- A work unit with the key and the specification that are made for a campaign. -/
theorem descends_newborn {u : WorkUnit} (key : Key) {owner : Owner}
    (hkey : u.key =
      { space := key.space, name := Naming.workUnit key.name u.spec.batchIndex })
    (howner : u.metadata.owner = some owner) (hname : owner.name = key.name)
    (hmet : w.Met (campaignSlot key) owner.uid) (hcampaign : u.spec.campaign = key.name)
    (hdocument : u.spec.configDocument = Naming.configDocument key.name) (now : Instant) :
    Descends named w (unitSlot u.key) (w.store.newborn now (Resource.encode u)) := by
  have hbody : (w.store.newborn now (Resource.encode u)).body = (Resource.encode u).body := rfl
  obtain ⟨u', hdecode, hspec⟩ := exists_decode_of_body (Resource.decode_encode u) hbody
  rw [← hspec] at hkey hcampaign hdocument
  rw [hkey]
  exact .unit howner hname hmet hdecode hcampaign hdocument

theorem Requested.created {kind : Kind} {object : Object}
    (h : Requested named deletes w (.create kind object)) (now : Instant) :
    Descends named w { kind, key := object.key } (w.store.newborn now object) := by
  cases h.requester with
  | admission ht hpast hasks =>
    cases hasks with
    | @createDocument campaign batches hknows =>
      obtain ⟨owner, howner, hname, hmet⟩ := exists_asOwner ht hpast hknows Kind.campaign.name
      obtain ⟨rfl, -⟩ := hknows
      exact @Descends.document named w campaign.key owner _ howner hname hmet
    | @createUnit campaign batches index batch created hknows =>
      obtain ⟨owner, howner, hname, hmet⟩ := exists_asOwner ht hpast hknows Kind.campaign.name
      obtain ⟨rfl, -⟩ := hknows
      exact descends_newborn (u := Admission.workUnit campaign index batch created) campaign.key
        rfl howner hname hmet rfl rfl now
  | lifecycle ht hpast hasks =>
    cases hasks with
    | @create u hknown =>
      obtain ⟨e, he, o, hfind, huid⟩ := hknown
      obtain ⟨n, -, hissued⟩ := (hpast e he).sound.issued hfind
      have howner : u.metadata.asOwner Kind.workUnit.name =
          some ⟨Kind.workUnit.name, u.key.name, .issued n⟩ := by
        rw [Metadata.asOwner, ← huid, hissued]
        rfl
      exact .execution howner ⟨_, ht, e, he, o, hfind, hissued⟩
  | substrate _ _ hasks => cases hasks
  | outside huser =>
    obtain ⟨rfl, hnamed, howner⟩ := huser
    exact .campaign hnamed howner

/-- What a lifecycle pass replaces keeps its owner and its specification. -/
theorem retains_of_lifecycle {kind : Kind} {object old : Object} (hpast : Genuine past w.store)
    (hasks : Lifecycle.Asks past (.store (.update kind object)))
    (hold : w.store.find? { kind, key := object.key } = some old)
    (hv : object.metadata.version = old.metadata.version) :
    object.metadata.owner = old.metadata.owner ∧ ∀ u : WorkUnit, Resource.decode old = .ok u →
      ∃ u' : WorkUnit, Resource.decode (w.store.revised old object) = .ok u' ∧
        u'.spec = u.spec := by
  obtain ⟨rfl, current, changed, hdecode, hretains, hspec, rfl⟩ :=
    hasks.exists_stored hpast hold hv
  have hmetadata : current.metadata = old.metadata := Resource.metadata_of_decode hdecode
  refine ⟨hretains.owner.trans (congrArg Metadata.owner hmetadata), ?_⟩
  intro u hu
  cases hdecode.symm.trans hu
  have hbody : (w.store.revised old (Resource.encode changed)).body =
    (Resource.encode changed).body := rfl
  obtain ⟨u', hu', hsame⟩ := exists_decode_of_body (Resource.decode_encode changed) hbody
  exact ⟨u', hu', hsame.trans hspec⟩

/-- A work unit that is replaced keeps its owner and its specification. -/
theorem Requested.retains {object old : Object}
    (h : Requested named deletes w (.update .workUnit object))
    (hold : w.store.find? (unitSlot object.key) = some old)
    (hv : object.metadata.version = old.metadata.version) :
    object.metadata.owner = old.metadata.owner ∧ ∀ u : WorkUnit, Resource.decode old = .ok u →
      ∃ u' : WorkUnit, Resource.decode (w.store.revised old object) = .ok u' ∧
        u'.spec = u.spec := by
  cases h.requester with
  | admission _ _ hasks | substrate _ _ hasks => cases hasks
  | lifecycle _ hpast hasks => exact retains_of_lifecycle hpast hasks hold hv
  | outside huser => cases huser.1

/-- What is replaced descends from what it did before. -/
theorem Requested.revised {kind : Kind} {object old : Object}
    (h : Requested named deletes w (.update kind object))
    (hold : w.store.find? { kind, key := object.key } = some old)
    (hv : object.metadata.version = old.metadata.version)
    (hdescends : Descends named w { kind, key := object.key } old) :
    Descends named w { kind, key := object.key } (w.store.revised old object) := by
  cases h.requester with
  | admission _ hpast hasks =>
    have howner : object.metadata.owner = old.metadata.owner :=
      congrArg Metadata.owner (hasks.metadata_eq hpast hold hv)
    refine hdescends.change howner ?_
    rintro rfl
    cases hasks
  | lifecycle _ hpast hasks =>
    obtain ⟨howner, hspec⟩ := retains_of_lifecycle hpast hasks hold hv
    exact hdescends.change howner fun _ => hspec
  | substrate _ hpast hasks =>
    cases hasks with
    | @change k s o current status hread hdecode =>
      have hmetadata : current.metadata = o.metadata := Resource.metadata_of_decode hdecode
      have heq := (hpast _ hread).eq_of_write (congrArg Metadata.key hmetadata)
        (congrArg Metadata.version hmetadata) hold hv
      have howner : current.metadata.owner = o.metadata.owner :=
        congrArg Metadata.owner hmetadata
      rw [heq] at hdescends
      exact hdescends.change howner nofun
  | outside huser =>
    obtain ⟨rfl, howner⟩ := huser
    cases hdescends with
    | campaign hnamed => exact .campaign hnamed howner

/-! ## All objects descend from campaigns -/

/-- After a step the store is as it was before, or something has been requested of it. -/
theorem outcome (hw : (rulesWith excludes named deletes).Reachable w)
    (hstep : (rulesWith excludes named deletes).Step w w') :
    w'.store = w.store ∨ ∃ r, Requested named deletes w r ∧ w.store.Outcome r w'.store := by
  rcases hw.steps.outcome program_heeds .empty hstep.move with hsame | ⟨r, hr, hout⟩
  · exact .inl hsame
  · refine .inr ⟨r, ?_, hout⟩
    cases hr with
    | own ht hpast hasks => exact .own ht hpast hasks
    | outside huser => exact .outside huser

theorem descends_step (hw : (rulesWith excludes named deletes).Reachable w)
    (hstep : (rulesWith excludes named deletes).Step w w')
    (h : ∀ slot o, w.store.find? slot = some o → Descends named w slot o) :
    ∀ slot o, w'.store.find? slot = some o → Descends named w' slot o := by
  intro slot o found
  apply Descends.move (w := w) _ hstep.move
  rcases outcome hw hstep with hsame | ⟨r, hr, hout⟩
  · exact h slot o (hsame ▸ found)
  · cases hout.source (Requested.ne_orphan hr) found with
    | same hold => exact h slot o hold
    | marked time version hold =>
      exact (h slot _ hold).change rfl fun _ u hdecode => exists_decode_of_body hdecode rfl
    | @created object now heq hkey hnone =>
      subst heq
      have hnew := Requested.created hr now
      rwa [hkey] at hnew
    | @revised old object heq hkey hv hold =>
      subst heq
      have hslot : ({ kind := slot.kind, key := object.key } : Slot) = slot := by rw [hkey]
      have hrevised := Requested.revised hr (hslot.symm ▸ hold) hv (hslot.symm ▸ h slot old hold)
      rwa [hslot] at hrevised

/-- **Every object descends from a campaign.** -/
theorem descends (hw : (rulesWith excludes named deletes).Reachable w) :
    ∀ slot o, w.store.find? slot = some o → Descends named w slot o := by
  apply hw.induct (P := fun w => ∀ slot o, w.store.find? slot = some o → Descends named w slot o)
  · intro _ slot o found
    cases found
  · intro w w' hw ih hstep
    exact descends_step hw hstep ih

/-! ## Specifications of work units -/

/-- A pass has cut the repositories of a campaign, and this is the specification of a work unit for
one of the batches. -/
def Specified (w : World repertoire) (spec : WorkUnit.Spec) : Prop :=
  ∃ t ∈ w.tasks, ∃ key campaign batches index batch now,
    Admission.Knows key campaign t.past ∧ Admission.Cuts campaign batches t.past ∧
    batches[index]? = some batch ∧ spec = (Admission.workUnit campaign index batch now).spec

theorem Specified.move {spec : WorkUnit.Spec} (h : Specified w spec) {rules : Rules repertoire}
    (hmove : rules.Move w w') : Specified w' spec := by
  obtain ⟨t, ht, key, campaign, batches, index, batch, now, hknows, hcuts, hspec⟩ := h
  obtain ⟨t', ht', -, hpast⟩ := hmove.exists_past ht
  exact ⟨t', ht', key, campaign, batches, index, batch, now, hknows.mono hpast.subset,
    hcuts.mono hpast.subset, hspec⟩

theorem specified_step (hw : (rulesWith excludes named deletes).Reachable w)
    (hstep : (rulesWith excludes named deletes).Step w w')
    (h : ∀ k o, w.store.find? (unitSlot k) = some o →
      ∃ u : WorkUnit, Resource.decode o = .ok u ∧ Specified w u.spec) {k : Key}
    (found : w'.store.find? (unitSlot k) = some o) :
    ∃ u : WorkUnit, Resource.decode o = .ok u ∧ Specified w' u.spec := by
  have hkept : ∀ {old : Object}, w.store.find? (unitSlot k) = some old →
      (∀ u : WorkUnit, Resource.decode old = .ok u →
        ∃ u' : WorkUnit, Resource.decode o = .ok u' ∧ u'.spec = u.spec) →
      ∃ u : WorkUnit, Resource.decode o = .ok u ∧ Specified w' u.spec := by
    intro old hold hspec
    obtain ⟨u, hdecode, hspecified⟩ := h k old hold
    obtain ⟨u', hdecode', heq⟩ := hspec u hdecode
    exact ⟨u', hdecode', heq ▸ hspecified.move hstep.move⟩
  rcases outcome hw hstep with hsame | ⟨r, hr, hout⟩
  · exact hkept (hsame ▸ found) fun u hdecode => ⟨u, hdecode, rfl⟩
  · cases hout.source (Requested.ne_orphan hr) found with
    | same hold => exact hkept hold fun u hdecode => ⟨u, hdecode, rfl⟩
    | marked time version hold =>
      exact hkept hold fun u hdecode => exists_decode_of_body hdecode rfl
    | created now heq =>
      subst heq
      obtain ⟨t, ht, key, hasks⟩ := Requested.exists_admission hr ⟨_, .inr (.inl rfl)⟩
      cases hasks with
      | @createUnit campaign batches index batch time hknows hcuts _ hbatch =>
        have hnew : Specified w (Admission.workUnit campaign index batch time).spec :=
          ⟨t, ht, key, campaign, batches, index, batch, time, hknows, hcuts, hbatch, rfl⟩
        exact ⟨_, Resource.decode_stored _ (Admission.workUnit campaign index batch time),
          hnew.move hstep.move⟩
    | revised heq hkey hv hold =>
      subst heq
      exact hkept hold (Requested.retains hr (hkey.symm ▸ hold) hv).2

/-- Every work unit has the specification that some pass has made for it. -/
theorem specified (hw : (rulesWith excludes named deletes).Reachable w) :
    ∀ k o, w.store.find? (unitSlot k) = some o →
      ∃ u : WorkUnit, Resource.decode o = .ok u ∧ Specified w u.spec := by
  apply hw.induct (P := fun w => ∀ k o, w.store.find? (unitSlot k) = some o →
    ∃ u : WorkUnit, Resource.decode o = .ok u ∧ Specified w u.spec)
  · intro _ k o found
    cases found
  · intro w w' hw ih hstep k o found
    exact specified_step hw hstep ih found

/-! ## Owners -/

/-- The owner of an object is in the slot where it has been met. -/
theorem owner_cases (hw : (rulesWith excludes named deletes).Reachable w)
    (found : w.store.find? slot = some o) {other : Slot} (hother : w.store.find? other = some o')
    (howns : o.Owns o') :
    slot.kind = .campaign ∧ (other.kind = .configDocument ∨ other.kind = .workUnit) ∨
      ∃ key, slot = unitSlot key ∧ other = executionSlot key := by
  obtain ⟨uid, huid, howner⟩ := howns
  have hcases : ∀ {owner : Owner} {met : Slot}, o'.metadata.owner = some owner →
      w.Met met owner.uid → slot = met := by
    intro owner met hsome hmet
    rw [hsome] at howner
    cases howner
    exact hw.steps.slot_eq .empty hmet found huid
  cases descends hw other o' hother with
  | campaign _ hnone =>
    rw [hnone] at howner
    cases howner
  | document hsome _ hmet => exact .inl ⟨congrArg Slot.kind (hcases hsome hmet), .inl rfl⟩
  | unit hsome _ hmet => exact .inl ⟨congrArg Slot.kind (hcases hsome hmet), .inr rfl⟩
  | execution hsome hmet => exact .inr ⟨_, hcases hsome hmet, rfl⟩

/-- A work unit that no finalizer holds owns nothing. -/
theorem owns_nothing (hw : (rules named deletes).Reachable w) {k : Key}
    (found : w.store.find? (unitSlot k) = some o) (hfin : o.metadata.finalizers = []) {other : Slot}
    (hother : w.store.find? other = some o') : ¬ o.Owns o' := by
  intro howns
  rcases owner_cases hw found hother howns with ⟨hkind, -⟩ | ⟨key, hslot, rfl⟩
  · cases hkind
  · cases hslot
    obtain ⟨-, held, hheld, hguarded⟩ := (custody hw).guarded hother
    cases found.symm.trans hheld
    exact Metadata.ne_nil_of_hasFinalizer hguarded hfin

/-! ## Where users delete nothing -/

/-- Neither campaigns nor configuration documents go with a work unit or an execution. -/
theorem find?_of_cascaded (hw : (rulesWith excludes named deletes).Reachable w) {root : Slot}
    {s' : Store} (hroot : root.kind = .workUnit ∨ root.kind = .execution)
    (h : w.store.Cascaded root s')
    (hkind : slot.kind = .campaign ∨ slot.kind = .configDocument) :
    s'.find? slot = w.store.find? slot := by
  have howner : ∀ {owner x other x'}, owner.kind = .workUnit ∨ owner.kind = .execution →
      w.store.find? owner = some x → w.store.find? other = some x' → x.Owns x' →
      other.kind = .execution := by
    intro owner x other x' howner hx hx' howns
    rcases owner_cases hw hx hx' howns with ⟨hcampaign, -⟩ | ⟨key, -, rfl⟩
    · rw [hcampaign] at howner
      rcases howner with h | h <;> cases h
    · rfl
  have hdoomed : ∀ other, w.store.Doomed root other →
      other.kind = .workUnit ∨ other.kind = .execution := by
    intro other hgoes
    induction hgoes with
    | root => exact hroot
    | owned _ hx hx' _ howns ih => exact .inr (howner ih hx hx' howns)
  have hspared : slot.kind ≠ .workUnit ∧ slot.kind ≠ .execution := by
    rcases hkind with hkind | hkind <;> rw [hkind] <;> exact ⟨nofun, nofun⟩
  have hstays : ¬ w.store.Doomed root slot := by
    intro hgoes
    rcases hdoomed slot hgoes with h | h
    · exact hspared.1 h
    · exact hspared.2 h
  cases hfind : w.store.find? slot with
  | none => exact (h.find?_eq_none_iff slot).2 (.inl hfind)
  | some o =>
    apply h.unchanged slot o hfind hstays
    left
    rintro ⟨owner, x, hgoes, hx, howns⟩
    exact hspared.2 (howner (hdoomed owner hgoes) hx hfind howns)

/-- Campaigns and configuration documents are not to be deleted. -/
def Stays (s : Store) : Prop :=
  ∀ slot o, s.find? slot = some o → slot.kind = .campaign ∨ slot.kind = .configDocument →
    o.metadata.isDeleting = false

/-- The passes delete work units and executions only. -/
theorem Requested.delete_kind {kind : Kind} {key : Key} {propagation : Propagation}
    (h : Requested named False w (.delete kind key propagation)) :
    kind = .workUnit ∨ kind = .execution := by
  cases h.requester with
  | admission _ _ hasks =>
    cases hasks
    exact .inl rfl
  | lifecycle _ _ hasks =>
    cases hasks with
    | delete _ hkind => exact hkind
  | substrate _ _ hasks => cases hasks
  | outside huser => exact huser.1.elim

/-- A campaign or a configuration document keeps its identity, and is not marked. -/
theorem Stays.outcome (h : Stays w.store) (hw : (rulesWith excludes named False).Reachable w)
    {r : StoreRequest} {s' : Store} (hr : Requested named False w r) (hout : w.store.Outcome r s') :
    Stays s' ∧ ∀ slot o, w.store.find? slot = some o →
      slot.kind = .campaign ∨ slot.kind = .configDocument →
      ∃ o', s'.find? slot = some o' ∧ o'.metadata.uid = o.metadata.uid := by
  have hsame : (∀ slot, slot.kind = .campaign ∨ slot.kind = .configDocument →
      s'.find? slot = w.store.find? slot) → Stays s' ∧ ∀ slot o, w.store.find? slot = some o →
      slot.kind = .campaign ∨ slot.kind = .configDocument →
      ∃ o', s'.find? slot = some o' ∧ o'.metadata.uid = o.metadata.uid := by
    intro hsame
    refine ⟨fun slot o found hkind => ?_, fun slot o found hkind => ?_⟩
    · exact h slot o ((hsame slot hkind).symm.trans found) hkind
    · exact ⟨o, (hsame slot hkind).trans found, rfl⟩
  cases hout with
  | idle hidle => exact hsame fun slot _ => hidle slot
  | @create kind object now hnone =>
    refine ⟨fun slot o found hkind => ?_, fun slot o found _ =>
      ⟨o, Store.find?_withNew_of_some hnone object found, rfl⟩⟩
    rw [Store.find?_withNew] at found
    split at found
    · cases found
      rfl
    · exact h slot o found hkind
  | @revise kind old object hold hv =>
    refine ⟨fun slot o found hkind => ?_, fun slot o found _ =>
      Store.exists_withRevised hold object found⟩
    rw [Store.find?_withRevised] at found
    split at found
    · next heq =>
      cases found
      subst heq
      exact h _ old hold hkind
    · exact h slot o found hkind
  | @release kind old object _ hold hv hdel hfin hcascaded =>
    apply hsame
    intro slot hkind
    apply find?_of_cascaded hw _ hcascaded hkind
    cases kind with
    | workUnit => exact .inl rfl
    | execution => exact .inr rfl
    | campaign => exact absurd (h _ old hold (.inl rfl)) (by simp [hdel])
    | configDocument => exact absurd (h _ old hold (.inr rfl)) (by simp [hdel])
  | @mark kind key _ _ _ _ _ _ _ _ hother =>
    apply hsame
    intro slot hkind
    apply hother
    rintro rfl
    rcases Requested.delete_kind hr with rfl | rfl <;> rcases hkind with h | h <;> cases h
  | remove _ _ _ hcascaded =>
    exact hsame fun slot hkind => find?_of_cascaded hw (Requested.delete_kind hr) hcascaded hkind
  | leave => exact (Requested.ne_orphan hr _ _ rfl).elim

theorem stays (hw : (rulesWith excludes named False).Reachable w) : Stays w.store := by
  apply hw.induct (P := fun w => Stays w.store)
  · intro _ slot o found
    cases found
  · intro w w' hw ih hstep
    rcases outcome hw hstep with hsame | ⟨r, hr, hout⟩
    · rw [hsame]
      exact ih
    · exact (ih.outcome hw hr hout).1

/-- Where users delete nothing, a campaign or a configuration document stays what it is. -/
theorem find?_steps (hw : (rulesWith excludes named False).Reachable w)
    (hsteps : (rulesWith excludes named False).Steps w w') (found : w.store.find? slot = some o)
    (hkind : slot.kind = .campaign ∨ slot.kind = .configDocument) :
    ∃ o', w'.store.find? slot = some o' ∧ o'.metadata.uid = o.metadata.uid := by
  induction hsteps with
  | refl => exact ⟨o, found, rfl⟩
  | @tail w₁ w₂ hsteps hstep ih =>
    obtain ⟨o₁, found₁, huid⟩ := ih
    have hreachable := hw.of_steps hsteps
    rcases outcome hreachable hstep with hsame | ⟨r, hr, hout⟩
    · exact ⟨o₁, hsame ▸ found₁, huid⟩
    · obtain ⟨o₂, found₂, huid₂⟩ :=
        ((stays hreachable).outcome hreachable hr hout).2 slot o₁ found₁ hkind
      exact ⟨o₂, found₂, huid₂.trans huid⟩

/-- A campaign that has been met is the one that is stored. -/
theorem uid_of_met (hw : (rulesWith excludes named False).Reachable w) {key : Key} {uid : Uid}
    (hmet : w.Met (campaignSlot key) uid) (found : w.store.find? (campaignSlot key) = some o) :
    o.metadata.uid = some uid := by
  obtain ⟨t, ht, e, he, earlier, hearlier, huid⟩ := hmet
  obtain ⟨_, w₀, w₁, -, hw₀, -, htook⟩ := hw.exists_exchange ht he
  obtain ⟨o', found', heq⟩ :=
    find?_steps hw₀ (.head htook.step htook.after) (htook.store_before ▸ hearlier) (.inl rfl)
  cases found.symm.trans found'
  exact heq.trans huid

end Fleet
end CampaignControl
