import CampaignControl.Proofs.Fleet

/-!
# Campaigns beside each other

What an admission pass changes besides its campaign is in a slot whose key is made from the name of
this campaign, and what it adopts is there, too (`Admission.Addresses`, `Admission.pass_isolated`).
A name is cut where it is too long, so that the same key may have been made from the name of another
campaign. Then the pass changes what it finds, whoever has put it there
(`Admission.isolation_fails`).
-/

namespace CampaignControl
namespace Admission

open Fleet (Descends Requested)
open Lifecycle (unitSlot)

/-- The slots that a pass over the campaign at a key makes from its name. -/
def Addresses (key : Key) (slot : Slot) : Prop :=
  slot = batchesSlot key ∨
    ∃ index, slot = unitSlot { space := key.space, name := Naming.workUnit key.name index }

theorem Addresses.space_eq {key : Key} {slot : Slot} (h : Addresses key slot) :
    slot.key.space = key.space := by
  rcases h with rfl | ⟨index, rfl⟩
  · rfl
  · rfl

variable {named : Key → Prop} {deletes : Prop} {w : World Fleet.repertoire} {key : Key}
  {s' : Store} {slot : Slot} {o : Object} {past : List Exchange} {t : Task Fleet.repertoire}

/-- A document or a work unit is where the name of its owner says. -/
theorem addresses_of_descends (h : Descends named w slot o)
    (hkind : slot.kind = .configDocument ∨ slot.kind = .workUnit) :
    ∃ owner, o.metadata.owner = some owner ∧
      w.Met (campaignSlot { space := slot.key.space, name := owner.name }) owner.uid ∧
      Addresses { space := slot.key.space, name := owner.name } slot := by
  cases h with
  | campaign | execution => rcases hkind with h | h <;> cases h
  | @document key owner _ howner hname hmet =>
    refine ⟨owner, howner, ?_, ?_⟩
    · rw [hname]
      exact hmet
    · rw [hname]
      exact .inl rfl
  | @unit key owner _ u howner hname hmet =>
    refine ⟨owner, howner, ?_, ?_⟩
    · rw [hname]
      exact hmet
    · rw [hname]
      exact .inr ⟨u.spec.batchIndex, rfl⟩

/-- What a pass drains is where the name of its campaign says. -/
theorem addresses_of_selected (hw : (Fleet.rules named deletes).Reachable w) (ht : t ∈ w.tasks)
    {campaign : Campaign} (hknows : Knows key campaign t.past) {k : Key}
    (hselected : Selected (unitFilter campaign) (unitSlot k) t.past) :
    Addresses key (unitSlot k) := by
  obtain ⟨e, he, o, hfind, hselects⟩ := hselected
  obtain ⟨_, w₀, w₁, -, hw₀, -, htook⟩ := hw.exists_exchange ht he
  have hfind₀ : w₀.store.find? (unitSlot k) = some o := htook.store_before ▸ hfind
  obtain ⟨owner, howner, hmet, haddresses⟩ :=
    addresses_of_descends (Fleet.descends hw₀ _ o hfind₀) (.inr rfl)
  -- the owner is the campaign that the pass has read
  obtain ⟨self, hself, hname, hmet'⟩ :=
    Fleet.exists_asOwner ht (hw.steps.genuine .empty ht) hknows ""
  have huid : campaign.metadata.uid = some self.uid := by
    rw [← uid_asOwner campaign.metadata "", hself]
    rfl
  have hsame : owner.uid = self.uid := by
    rw [unitFilter, huid] at hselects
    simp only [Filter.selects, howner, Bool.and_eq_true, beq_iff_eq, Option.map_some,
      Option.some.injEq] at hselects
    exact hselects.1.2
  have hmet₁ := (hmet.move htook.step.move).steps htook.after
  rw [hsame] at hmet₁
  cases hw.steps.met_inj .empty hmet₁ hmet'
  exact haddresses

/-- A pass changes its campaign, and what is in the slots that it makes from its name. -/
theorem addresses_of_changed (hw : (Fleet.rules named deletes).Reachable w) (ht : t ∈ w.tasks)
    {r : StoreRequest} (hasks : Asks key t.past (.store r)) (hout : w.store.Outcome r s')
    (found : w.store.find? slot = some o) (hchanged : s'.find? slot ≠ some o) :
    slot = campaignSlot key ∨
      (slot.kind = .configDocument ∨ slot.kind = .workUnit) ∧ Addresses key slot := by
  have hpast := hw.steps.genuine .empty ht
  have hheld : w.store.Held := (Store.Reached.intact (hw.steps.reached ⟨[], rfl⟩)).held
  have hidle : (∀ slot, s'.find? slot = w.store.find? slot) → False :=
    fun hsame => hchanged ((hsame slot).trans found)
  have hnew : ∀ {now place object}, w.store.find? place = none →
      s' = w.store.withNew now place object → False := by
    rintro now place object hnone rfl
    exact hchanged (Store.find?_withNew_of_some hnone object found)
  -- what is written back is held as it was, so that it stays
  have hwritten : ∀ {kind object}, r = .update kind object → slot = campaignSlot key ∨
      (slot.kind = .configDocument ∨ slot.kind = .workUnit) ∧ Addresses key slot := by
    rintro kind object rfl
    have hslot : slot = { kind, key := object.key } := by
      by_contra hne
      cases hout with
      | idle hsame => exact hidle hsame
      | revise =>
        apply hchanged
        rw [Store.find?_withRevised, if_neg (Ne.symm hne), found]
      | release hold hv hdel hfin =>
        apply hheld _ _ hold hdel
        rw [← hasks.metadata_eq hpast hold hv]
        exact hfin
    rcases hasks.slot_eq hpast with h | h
    · exact .inl (hslot.trans h)
    · rw [hslot, h]
      exact .inr ⟨.inl rfl, .inl rfl⟩
  cases hasks with
  | get | list =>
    cases hout with
    | idle hsame => exact (hidle hsame).elim
  | createDocument | createUnit =>
    cases hout with
    | idle hsame => exact (hidle hsame).elim
    | create now hnone => exact (hnew hnone rfl).elim
  | refresh | report => exact hwritten rfl
  | @drain campaign k hknows hselected =>
    have hslot : slot = unitSlot k := by
      by_contra hne
      cases hout with
      | idle hsame => exact hidle hsame
      | mark _ _ _ _ _ hother => exact hchanged ((hother slot (Ne.symm hne)).trans found)
      | remove _ hold hfin hcascaded =>
        apply hchanged
        rw [hcascaded.find?_of_childless hold (fun _ _ => Fleet.owns_nothing hw hold hfin) hne,
          found]
    subst hslot
    exact .inr ⟨.inr rfl, addresses_of_selected hw ht hknows hselected⟩

/-- What an exchange of a pass changes is the campaign, or in a slot that is made from its name and
from the name of the owner. -/
theorem owner_of_changed (hw : (Fleet.rules named deletes).Reachable w) (ht : t ∈ w.tasks)
    (hadmits : t.job.Admits key) {e : Exchange} (he : e ∈ t.past)
    (found : e.before.find? slot = some o) (hchanged : e.after.find? slot ≠ some o) :
    slot = campaignSlot key ∨ ∃ owner, o.metadata.owner = some owner ∧
      Addresses key slot ∧ Addresses { space := slot.key.space, name := owner.name } slot ∧
      (¬ deletes → owner.name = key.name → ∀ campaign,
        e.before.find? (campaignSlot key) = some campaign →
        campaign.metadata.uid = some owner.uid) := by
  obtain ⟨front, w₀, w₁, -, hw₀, -, htook⟩ := hw.exists_exchange ht he
  have hasks : Asks key front e.request :=
    hadmits.asks (htook.allowed Fleet.program_heeds .empty)
  obtain ⟨t₀, ht₀, -, hfront, -⟩ := htook.asked
  have hanswered := htook.answered
  obtain ⟨request, reply, before, after⟩ := e
  cases request with
  | discover | correlate | publish | measure =>
    cases hanswered
    exact (hchanged found).elim
  | store r =>
    have hbefore : w₀.store = before := htook.store_before
    subst hfront hbefore
    have hout := hanswered.outcome hw₀.sound
    rcases addresses_of_changed hw₀ ht₀ hasks hout found hchanged with hslot | ⟨hkind, hkey⟩
    · exact .inl hslot
    · obtain ⟨owner, howner, hmet, haddresses⟩ :=
        addresses_of_descends (Fleet.descends hw₀ slot o found) hkind
      refine .inr ⟨owner, howner, hkey, haddresses, ?_⟩
      intro hnot hname campaign hcampaign
      cases eq_false hnot
      rw [hname, hkey.space_eq] at hmet
      exact Fleet.uid_of_met hw₀ hmet hcampaign

/-- What a pass adopts has been found under the name that is made for its campaign. -/
theorem exists_adopted (hw : (Fleet.rules named deletes).Reachable w) (ht : t ∈ w.tasks)
    (hadmits : t.job.Admits key) {e : Exchange} (he : e ∈ t.past) {event : Event} {index : Nat}
    (hrequest : e.request = .publish event) (hpayload : event.payload = .adopted index) :
    event.entity = { space := key.space, name := Naming.workUnit key.name index } ∧
    ∃ e' ∈ t.past, ∃ o, ∃ u : WorkUnit, e'.after.find? (unitSlot event.entity) = some o ∧
      Resource.decode o = .ok u ∧ u.spec.batchIndex = index ∧
      Naming.workUnit u.spec.campaign index = Naming.workUnit key.name index := by
  obtain ⟨front, _, _, hfront, -, -, htook⟩ := hw.exists_exchange ht he
  have hasks : Asks key front e.request :=
    hadmits.asks (htook.allowed Fleet.program_heeds .empty)
  rw [hrequest] at hasks
  cases hasks with
  | publish hnot => exact (hnot index hpayload).elim
  | @adopt _ index' hadopted hentity hoccupied =>
    cases hadopted.symm.trans hpayload
    refine ⟨hentity, ?_⟩
    obtain ⟨e', he', hthere⟩ := hoccupied
    have hmem : e' ∈ t.past := hfront.subset he'
    obtain ⟨o, found⟩ := Option.ne_none_iff_exists'.1 hthere
    obtain ⟨_, v₀, v₁, -, -, hv₁, htook'⟩ := hw.exists_exchange ht hmem
    obtain ⟨owner, u, -, -, hdecode, hcampaign, -, hname⟩ :=
      (Fleet.descends hv₁ _ o (htook'.store_after ▸ found)).of_unit
    have hnames : Naming.workUnit owner.name u.spec.batchIndex =
        Naming.workUnit key.name index := hname.symm.trans (congrArg Key.name hentity)
    have hindex := Naming.workUnit_index_inj hnames
    refine ⟨e', hmem, o, u, found, hdecode, hindex, ?_⟩
    rw [hcampaign, ← hnames, hindex]

/-- **An admission pass keeps to the names of its campaign.** Whatever one of its requests changes
is the campaign or is in a slot that is made from its name, and as well from the name of the
campaign that owns it. If the names are the same, so are the campaigns, unless users have deleted
some. Whatever a pass adopts is a work unit with this index, in a slot that is made from both names,
too. -/
theorem pass_isolated (hw : (Fleet.rules named deletes).Reachable w) (ht : t ∈ w.tasks)
    (hadmits : t.job.Admits key) {e : Exchange} (he : e ∈ t.past) :
    (∀ slot o, e.before.find? slot = some o → e.after.find? slot ≠ some o →
      slot = campaignSlot key ∨ ∃ owner, o.metadata.owner = some owner ∧
        Addresses key slot ∧ Addresses { space := slot.key.space, name := owner.name } slot ∧
        (¬ deletes → owner.name = key.name → ∀ campaign,
          e.before.find? (campaignSlot key) = some campaign →
          campaign.metadata.uid = some owner.uid)) ∧
    ∀ event index, e.request = .publish event → event.payload = .adopted index →
      event.entity = { space := key.space, name := Naming.workUnit key.name index } ∧
      ∃ e' ∈ t.past, ∃ o, ∃ u : WorkUnit, e'.after.find? (unitSlot event.entity) = some o ∧
        Resource.decode o = .ok u ∧ u.spec.batchIndex = index ∧
        Naming.workUnit u.spec.campaign index = Naming.workUnit key.name index := by
  constructor
  · intro slot o found hchanged
    exact owner_of_changed hw ht hadmits he found hchanged
  · intro event index hrequest hpayload
    exact exists_adopted hw ht hadmits he hrequest hpayload

/-! ## Two names that are cut to the same -/

/-- Two campaigns, each for one repository. -/
def sampleTwin (name : String) : Campaign where
  metadata := { key := { space := "maint", name } }
  spec := { policy := { strategy := .fixedBatchSize, batchSize := 1, parallelism := 2 } }

def sampleWest : Campaign :=
  sampleTwin "dependency-maintenance-of-the-payment-services-in-region-eu-west"

def sampleNorth : Campaign :=
  sampleTwin "dependency-maintenance-of-the-payment-services-in-region-eu-north"

/-- A pass over the first campaign has come to its end. -/
def sampleFirst : List (Turn Fleet.repertoire) :=
  [.outside .epoch (.create .campaign (Resource.encode sampleWest)),
    .outside .epoch (.create .campaign (Resource.encode sampleNorth)),
    .start (.pass (.admission {} sampleWest.key .epoch))] ++
  List.replicate 11 (.answer 0 .epoch {} ["first"])

/-- A pass over the second campaign has put its document. -/
def sampleSecond : List (Turn Fleet.repertoire) :=
  .start (.pass (.admission {} sampleNorth.key .epoch)) ::
  List.replicate 7 (.answer 1 .epoch {} ["second"])

/-- What is there after a pass that nobody else interferes with. -/
def undisturbed (settings : Settings) (key : Key) (now : Instant) (repositories : List String)
    (s : Store) : Stage :=
  (Stage.run (reconcile settings key now) { store := s, repositories := [(key, repositories)] }).2

/-- The second campaign finds the document of the first one in its own slot. A pass over it writes
this document, alone as well as beside others. -/
theorem exists_shared : ∃ w : World Fleet.repertoire,
    (Fleet.rules (fun _ => True) False).Reachable w ∧ ∃ campaign o,
      w.store.find? (campaignSlot sampleNorth.key) = some campaign ∧
      w.store.find? (batchesSlot sampleNorth.key) = some o ∧
      o.metadata.owner.map (·.uid) ≠ campaign.metadata.uid ∧
      (undisturbed {} sampleNorth.key .epoch ["second"] w.store).store.find?
        (batchesSlot sampleNorth.key) ≠ some o ∧
      ∃ w', (Fleet.rules (fun _ => True) False).Steps w w' ∧
        ∃ t ∈ w'.tasks, t.job.Admits sampleNorth.key ∧ ∃ e ∈ t.past,
          e.before.find? (campaignSlot sampleNorth.key) = some campaign ∧
          e.before.find? (batchesSlot sampleNorth.key) = some o ∧
          e.after.find? (batchesSlot sampleNorth.key) ≠ some o := by
  have hplay : ((Fleet.rules (fun _ => True) False).play {} sampleFirst).any fun w =>
      (w.store.find? (campaignSlot sampleNorth.key)).any fun campaign =>
      (w.store.find? (batchesSlot sampleNorth.key)).any fun o =>
      decide (o.metadata.owner.map (·.uid) ≠ campaign.metadata.uid ∧
        (undisturbed {} sampleNorth.key .epoch ["second"] w.store).store.find?
          (batchesSlot sampleNorth.key) ≠ some o) &&
      ((Fleet.rules (fun _ => True) False).play w sampleSecond).any fun w' =>
      w'.tasks.any fun t => t.past.any fun e =>
        decide (t.job.Admits sampleNorth.key ∧
          e.before.find? (campaignSlot sampleNorth.key) = some campaign ∧
          e.before.find? (batchesSlot sampleNorth.key) = some o ∧
          e.after.find? (batchesSlot sampleNorth.key) ≠ some o) := by decide +kernel
  obtain ⟨w, hfirst, hcheck⟩ := Rules.exists_of_play hplay
  obtain ⟨campaign, hcampaign, hcheck⟩ := Option.any_eq_true _ _ |>.1 hcheck
  obtain ⟨o, found, hcheck⟩ := Option.any_eq_true _ _ |>.1 hcheck
  obtain ⟨halone, hcheck⟩ := Bool.and_eq_true_iff.1 hcheck
  obtain ⟨hother, hwritten⟩ := of_decide_eq_true halone
  obtain ⟨w', hsecond, hcheck⟩ := Rules.exists_of_play hcheck
  obtain ⟨t, ht, hcheck⟩ := List.any_eq_true.1 hcheck
  obtain ⟨e, he, hcheck⟩ := List.any_eq_true.1 hcheck
  obtain ⟨hadmits, hexchange⟩ := of_decide_eq_true hcheck
  exact ⟨w, ⟨trivial, hfirst⟩, campaign, o, hcampaign, found, hother, hwritten, w', hsecond, t, ht,
    hadmits, e, he, hexchange⟩

/-- Campaigns are not isolated from each other, whatever their names are. -/
theorem isolation_fails :
    ¬ ∀ (w : World Fleet.repertoire) (settings : Settings) (key : Key) (now : Instant)
      (repositories : List String) (campaign : Object),
      (Fleet.rules (fun _ => True) False).Reachable w →
      w.store.find? (campaignSlot key) = some campaign →
      let after := undisturbed settings key now repositories w.store
      (∀ slot o, w.store.find? slot = some o → slot ≠ campaignSlot key →
        o.metadata.owner.map (·.uid) ≠ campaign.metadata.uid →
        after.store.find? slot = some o) ∧
      ∀ event ∈ after.events, ∀ index, event.payload = .adopted index → ∃ o, ∃ u : WorkUnit,
        after.store.find? (unitSlot event.entity) = some o ∧ Resource.decode o = .ok u ∧
        u.spec.campaign = key.name := by
  intro hisolated
  obtain ⟨w, hw, campaign, o, hcampaign, found, hother, hwritten, -⟩ := exists_shared
  obtain ⟨hkept, -⟩ := hisolated w {} _ .epoch ["second"] campaign hw hcampaign
  exact hwritten (hkept _ o found nofun hother)

/-- The name of the document that has been overwritten is made from the names of both campaigns. -/
theorem pass_isolated_sample : ∃ w : World Fleet.repertoire,
    (Fleet.rules (fun _ => True) False).Reachable w ∧
    ∃ t ∈ w.tasks, t.job.Admits sampleNorth.key ∧ ∃ e ∈ t.past, ∃ o owner,
      e.before.find? (batchesSlot sampleNorth.key) = some o ∧
      e.after.find? (batchesSlot sampleNorth.key) ≠ some o ∧ o.metadata.owner = some owner ∧
      owner.name ≠ sampleNorth.key.name ∧
      Addresses { space := sampleNorth.key.space, name := owner.name }
        (batchesSlot sampleNorth.key) := by
  obtain ⟨w₀, hw₀, campaign, o, -, -, hother, -, w, hsteps, t, ht, hadmits, e, he, hcampaign, found,
    hchanged⟩ := exists_shared
  have hw := hw₀.of_steps hsteps
  rcases (pass_isolated hw ht hadmits he).1 _ o found hchanged with
    hslot | ⟨owner, howner, -, haddresses, hsame⟩
  · cases congrArg Slot.kind hslot
  · refine ⟨w, hw, t, ht, hadmits, e, he, o, owner, found, hchanged, howner, ?_, haddresses⟩
    intro hname
    rw [hsame id hname campaign hcampaign, howner] at hother
    exact hother rfl

end Admission
end CampaignControl
