import CampaignControl.Proofs.Concurrency.Terms
import CampaignControl.Proofs.Fleet.Regular
import CampaignControl.Proofs.Lifecycle.Visit

/-!
# Passes that keep to their sites

A lifecycle pass beside passes over other work units, where no request meets a fault. All that it
reads and writes is at the key of its work unit, since what goes with a work unit or an execution in
a regular store is at the same key. So nobody changes there what it has read, and it comes to what
the visit of the site says (`Lifecycle.reconcile_settles`).

These are the terms of such a pass (`Lifecycle.atKey`): each of its requests leaves everything apart
from the two slots at its key alone. There is one rule for each request that a lifecycle pass makes,
and it says what is stored at the key afterwards (`Lifecycle.Shows`).
-/

namespace CampaignControl

open Fleet (Regular)

namespace Lifecycle

variable {issued : Nat} {k : Key} {site : Site} {s s' s'' : Store} {u : WorkUnit} {e : Execution}
  {execution : Option Execution}

/-! ## What is stored at a key -/

/-- What a store may have become while others worked at other keys. -/
structure Later (issued : Nat) (k : Key) (s s' : Store) : Prop where
  regular : Regular s'
  issued_le : issued ≤ s'.created
  unit : s'.find? (unitSlot k) = s.find? (unitSlot k)
  execution : s'.find? (executionSlot k) = s.find? (executionSlot k)

/-- What is stored at a key, after at least so many identities have been issued. -/
structure Shows (issued : Nat) (k : Key) (site : Site) (s : Store) : Prop where
  regular : Regular s
  issued_le : issued ≤ s.created
  unit : s.find? (unitSlot k) = site.unit.map Resource.encode
  execution : s.find? (executionSlot k) = site.execution.map Resource.encode

/-- Nothing has been done but at a key. -/
def Apart (k : Key) (s s' : Store) : Prop :=
  ∀ slot, slot ≠ unitSlot k → slot ≠ executionSlot k → s'.find? slot = s.find? slot

theorem Later.trans (h : Later issued k s s') (h' : Later issued k s' s'') :
    Later issued k s s'' where
  regular := h'.regular
  issued_le := h'.issued_le
  unit := h'.unit.trans h.unit
  execution := h'.execution.trans h.execution

theorem Apart.of_eq (h : ∀ slot, s'.find? slot = s.find? slot) : Apart k s s' :=
  fun slot _ _ => h slot

namespace Shows

theorem later (h : Shows issued k site s) (hlater : Later issued k s s') :
    Shows issued k site s' where
  regular := hlater.regular
  issued_le := hlater.issued_le
  unit := hlater.unit.trans h.unit
  execution := hlater.execution.trans h.execution

/-- The work unit at a key, and what is true of every work unit of a fleet. -/
theorem unit_facts (h : Shows issued k ⟨some u, execution⟩ s) :
    u.key = k ∧ (∀ key, u.status.execution = some key → key = k) ∧
      (∀ f ∈ u.metadata.finalizers, f = WorkUnit.finalizer) ∧
      (u.metadata.isDeleting → u.metadata.hasFinalizer WorkUnit.finalizer) := by
  obtain ⟨u', heq, hfacts⟩ := h.regular.exists_unit h.unit
  have hsame : (.ok u : Except StoreError WorkUnit) = .ok u' := by
    rw [← Resource.decode_encode u, ← Resource.decode_encode u', heq]
  cases hsame
  exact hfacts

theorem key_of_execution {unit : Option WorkUnit} (h : Shows issued k ⟨unit, some e⟩ s) :
    e.key = k := h.regular.sound.key_eq h.execution

theorem found?_unit {unit : Option WorkUnit} (h : Shows issued k ⟨unit, execution⟩ s) :
    Pass.found? (s.get .workUnit k) = .ok unit := by
  rw [Store.get, h.unit]
  cases unit with
  | none => rfl
  | some u => simp only [Option.map_some, Pass.found?, Resource.decode_encode]

theorem found?_execution {unit : Option WorkUnit} (h : Shows issued k ⟨unit, execution⟩ s) :
    Pass.found? (s.get .execution k) = .ok execution := by
  rw [Store.get, h.execution]
  cases execution with
  | none => rfl
  | some e => simp only [Option.map_some, Pass.found?, Resource.decode_encode]

theorem decoded_execution {unit : Option WorkUnit} (h : Shows issued k ⟨unit, some e⟩ s) :
    Pass.decoded (s.get .execution k) = .ok e := by
  rw [Store.get, h.execution]
  simp only [Option.map_some, Pass.decoded, Resource.decode_encode]

theorem issued_le_serve (h : Shows issued k site s) {now : Instant} {r : StoreRequest}
    {reply : r.Reply} (hserved : s.serve now r = (reply, s')) : issued ≤ s'.created := by
  have hfollows := Store.serve_follows now r s
  rw [hserved] at hfollows
  exact Nat.le_trans h.issued_le hfollows.created_le

/-- The site of a regular store. -/
theorem exists_of_regular (hs : Regular s) (hissued : issued ≤ s.created) (k : Key) :
    ∃ site, Shows issued k site s := by
  have hunit : ∃ unit : Option WorkUnit, s.find? (unitSlot k) = unit.map Resource.encode := by
    cases found : s.find? (unitSlot k) with
    | none => exact ⟨none, rfl⟩
    | some o =>
      obtain ⟨u, rfl, -⟩ := hs.exists_unit found
      exact ⟨some u, rfl⟩
  have hexecution : ∃ execution : Option Execution,
      s.find? (executionSlot k) = execution.map Resource.encode := by
    cases found : s.find? (executionSlot k) with
    | none => exact ⟨none, rfl⟩
    | some o =>
      obtain ⟨e, rfl, -⟩ := hs.exists_execution found
      exact ⟨some e, rfl⟩
  obtain ⟨unit, hunit⟩ := hunit
  obtain ⟨execution, hexecution⟩ := hexecution
  exact ⟨⟨unit, execution⟩, hs, hissued, hunit, hexecution⟩

end Shows

/-- The terms of a pass that works at one key. -/
def atKey (issued : Nat) (k : Key) : Terms where
  rely := Later issued k
  given := Regular
  leaves := Apart k
  trans := Later.trans
  self hlater := ⟨hlater.regular, hlater.issued_le, rfl, rfl⟩
  idle _ := .of_eq fun _ => rfl


variable {issued : Nat} {k : Key} {s s' : Store} {u changed : WorkUnit} {e : Execution}
  {unit : Option WorkUnit} {execution : Option Execution} {log : List Event}

theorem executionSlot_ne (k k' : Key) : executionSlot k ≠ unitSlot k' := nofun

/-! ## Requests at a key -/

/-- The execution of a work unit is created unless it is there. -/
theorem create_settles {post : Except StoreError Execution → List Event → Store → Prop}
    (hs : Shows issued k ⟨some u, execution⟩ s)
    (hnew : ∀ {s₁ : Store} {created : Execution}, execution = none →
      created.settled issued = u.toExecution → Shows issued k ⟨some u, some created⟩ s₁ →
      post (.ok created) log s₁)
    (hthere : ∀ {s₁ : Store} {e : Execution}, execution = some e →
      Shows issued k ⟨some u, some e⟩ s₁ → post (.error (.alreadyExists .execution k)) log s₁) :
    (Pass.lift (Pass.create u.toExecution)).Settles (atKey issued k) post log s := by
  obtain rfl : u.key = k := hs.unit_facts.1
  refine Pass.Settles.create fun {s₁ s₂ reply} now hlater hserved hregular => ?_
  replace hserved : s₁.create now .execution (Resource.encode u.toExecution) = (reply, s₂) :=
    hserved
  have hs₁ := hs.later hlater
  cases execution with
  | none =>
    rw [Store.create_of_find?_none now hs₁.execution] at hserved
    cases hserved
    refine ⟨fun slot _ hne => (Store.find?_withNew ..).trans (if_neg (Ne.symm hne)),
      fun hlater' => ?_⟩
    rw [Pass.decoded_newborn]
    apply hnew rfl
    · have hfresh := Metadata.settled_of_lt (Nat.lt_succ_of_le hs₁.issued_le)
        { u.toExecution.metadata with
          version := s₁.revision + 1, createdAt := some now, deletedAt := none }
      exact congrArg (Execution.mk · u.toExecution.spec u.toExecution.status) hfresh
    · refine Shows.later ⟨hregular, Nat.le_succ_of_le hs₁.issued_le, ?_, ?_⟩ hlater'
      · exact (Store.find?_withNew ..).trans hs₁.unit
      · exact (Store.find?_withNew ..).trans (if_pos rfl)
  | some e =>
    rw [Store.create_of_find?_some now hs₁.execution] at hserved
    cases hserved
    exact ⟨.of_eq fun _ => rfl, fun hlater' => hthere rfl (hs₁.later hlater')⟩

/-- The execution at a key has gone after its deletion, and nothing else has. -/
theorem deleteExecution_settles {post : Except StoreError Unit → List Event → Store → Prop}
    (hs : Shows issued k ⟨unit, execution⟩ s)
    (h : ∀ {s₁ : Store} {reply : Except StoreError Unit},
      (∀ e, reply = .error e → e.isNotFound) → Shows issued k ⟨unit, none⟩ s₁ →
      post reply log s₁) :
    (Pass.lift (Pass.delete .execution k)).Settles (atKey issued k) post log s := by
  refine Pass.Settles.delete fun {s₁ s₂ reply} now hlater hserved hregular => ?_
  have hs₁ := hs.later hlater
  have hissued : issued ≤ s₂.created :=
    hs₁.issued_le_serve (r := .delete .execution k .background) hserved
  cases execution with
  | none =>
    have hnone : s₁.advance.find? (executionSlot k) = none := hs₁.execution
    simp only [Store.delete, hnone] at hserved
    cases hserved
    refine ⟨.of_eq fun _ => rfl, fun hlater' => h ?_ ?_⟩
    · intro e he
      cases he
      rfl
    · exact Shows.later ⟨hregular, hissued, hs₁.unit, hs₁.execution⟩ hlater'
  | some e =>
    have found : s₁.find? (executionSlot k) = some (Resource.encode e) := hs₁.execution
    have hfin := (hs₁.regular.bound.custody.guarded found).1
    obtain ⟨after, hdelete, hgone, hother⟩ := Store.delete_alone hs₁.regular.sound found hfin
      (fun _ _ hother => hs₁.regular.execution_owns_nothing found hother) now
    cases hdelete.symm.trans hserved
    refine ⟨fun slot _ hne => hother slot hne, fun hlater' => h ?_ ?_⟩
    · intro e he
      cases he
    · refine Shows.later ⟨hregular, hissued, ?_, ?_⟩ hlater'
      · exact (hother _ (executionSlot_ne k k).symm).trans hs₁.unit
      · exact hgone

/-- A work unit with the finalizer stays after its deletion has been requested. -/
theorem deleteUnit_settles {post : Except StoreError Unit → List Event → Store → Prop}
    (hs : Shows issued k ⟨some u, execution⟩ s)
    (hguarded : u.metadata.hasFinalizer WorkUnit.finalizer)
    (h : ∀ {s₁ : Store} {marked : WorkUnit}, Shows issued k ⟨some marked, execution⟩ s₁ →
      marked.metadata.isDeleting → marked.key = u.key → marked.campaignKey = u.campaignKey →
      post (.ok ()) log s₁) :
    (Pass.lift (Pass.delete .workUnit k)).Settles (atKey issued k) post log s := by
  refine Pass.Settles.delete fun {s₁ s₂ reply} now hlater hserved hregular => ?_
  have hs₁ := hs.later hlater
  have hissued : issued ≤ s₂.created :=
    hs₁.issued_le_serve (r := .delete .workUnit k .background) hserved
  have found : s₁.find? (unitSlot k) = some (Resource.encode u) := hs₁.unit
  have hheld : (Resource.encode u).metadata.finalizers ≠ [] :=
    Metadata.ne_nil_of_hasFinalizer hguarded
  cases hdel : u.metadata.isDeleting with
  | true =>
    have found' : s₁.advance.find? (unitSlot k) = some (Resource.encode u) := found
    have hdel' : (Resource.encode u).metadata.isDeleting := hdel
    simp only [Store.delete, found', if_neg hheld, if_pos hdel'] at hserved
    cases hserved
    exact ⟨.of_eq fun _ => rfl, fun hlater' =>
      h (Shows.later ⟨hregular, hissued, hs₁.unit, hs₁.execution⟩ hlater') hdel rfl rfl⟩
  | false =>
    obtain ⟨s', hdelete, hmarked, hother⟩ := Store.delete_held found hheld hdel now .background
    cases hdelete.symm.trans hserved
    refine ⟨fun slot hne _ => hother slot hne, fun hlater' => ?_⟩
    let marked : WorkUnit :=
      { u with
        metadata := { u.metadata with deletedAt := some now, version := s₁.revision + 1 } }
    exact @h _ marked (Shows.later ⟨hregular, hissued, hmarked,
      (hother _ (executionSlot_ne k k)).trans hs₁.execution⟩ hlater') rfl rfl rfl

/-! ## Changes at a key -/

/-- A change of a work unit leaves its metadata as they are, apart from the finalizers. -/
def Refits (u changed : WorkUnit) : Prop :=
  changed.metadata = { u.metadata with finalizers := changed.metadata.finalizers }

section modify

variable {β : Type} {note : β} {settings : Settings} {change : WorkUnit → WorkUnit × Option β}
  {post : Option (WorkUnit × Option β) → List Event → Store → Prop}

theorem Refits.key (h : Refits u changed) : changed.metadata.key = u.metadata.key := by
  rw [h]

theorem Refits.version (h : Refits u changed) :
    changed.metadata.version = u.metadata.version := by
  rw [h]

/-- A changed work unit as it is stored. -/
def stored (s : Store) (u changed : WorkUnit) : WorkUnit :=
  Resource.setMetadata (s.revised (Resource.encode u) (Resource.encode changed)).metadata changed

theorem Refits.timeless_stored (h : Refits u changed) (s : Store) :
    (stored s u changed).timeless = changed.timeless := by
  refine WorkUnit.timeless_of_metadata rfl rfl ?_
  show ({ changed.metadata with
    uid := u.metadata.uid, version := s.revision + 1, createdAt := u.metadata.createdAt
    deletedAt := u.metadata.deletedAt } : Metadata).timeless = _
  rw [h]
  rfl

/-- A change of the work unit at a key that has nothing to write. -/
theorem modifyUnit_same (hs : Shows issued k ⟨some u, execution⟩ s) (hchange : change u = (u, none))
    (h : ∀ {s₁ : Store}, Shows issued k ⟨some u, execution⟩ s₁ → post (some (u, none)) log s₁) :
    (modifyUnit settings k change).Settles (atKey issued k) post log s :=
  Pass.Settles.modify_same (fun hlater => (hs.later hlater).found?_unit) hchange fun hlater =>
    h (hs.later hlater)

/-- A work unit is changed, and stays. -/
theorem modifyUnit_written (hs : Shows issued k ⟨some u, execution⟩ s)
    (hchange : change u = (changed, some note)) (hrefits : Refits u changed)
    (hheld : u.metadata.isDeleting → changed.metadata.finalizers ≠ [])
    (h : ∀ {s₁ : Store} {written : WorkUnit}, written.timeless = changed.timeless →
      Shows issued k ⟨some written, execution⟩ s₁ → post (some (written, some note)) log s₁) :
    (modifyUnit settings k change).Settles (atKey issued k) post log s := by
  refine Pass.Settles.modify_written (fun hlater => (hs.later hlater).found?_unit) hchange ?_
  intro s₁ s₂ reply now hlater hupdate hregular
  have hs₁ := hs.later hlater
  have hkey : (Resource.encode changed).key = k := hrefits.key.trans hs.unit_facts.1
  have found : s₁.find? (unitSlot k) = some (Resource.encode u) := hs₁.unit
  have hwritten := Store.update_of_held now found hkey hrefits.version hheld
  cases hwritten.symm.trans hupdate
  refine ⟨fun slot hne _ => (Store.find?_withRevised ..).trans (if_neg (Ne.symm hne)),
    stored s₁ u changed, rfl, fun hlater' => h (hrefits.timeless_stored s₁) ?_⟩
  refine Shows.later ⟨hregular, hs₁.issued_le, ?_, ?_⟩ hlater'
  · exact (Store.find?_withRevised ..).trans (if_pos rfl)
  · exact (Store.find?_withRevised ..).trans hs₁.execution

/-- A work unit without an execution that is to be deleted goes with its last finalizer, and nothing
else does. -/
theorem modifyUnit_released (hs : Shows issued k ⟨some u, none⟩ s)
    (hchange : change u = (changed, some note)) (hrefits : Refits u changed)
    (hdel : u.metadata.isDeleting) (hfree : changed.metadata.finalizers = [])
    (h : ∀ {s₁ : Store} (written : WorkUnit), Shows issued k {} s₁ →
      post (some (written, some note)) log s₁) :
    (modifyUnit settings k change).Settles (atKey issued k) post log s := by
  refine Pass.Settles.modify_written (fun hlater => (hs.later hlater).found?_unit) hchange ?_
  intro s₁ s₂ reply now hlater hupdate hregular
  have hs₁ := hs.later hlater
  have found : s₁.find? (unitSlot k) = some (Resource.encode u) := hs₁.unit
  have hkey : (Resource.encode changed).key = (unitSlot k).key := hrefits.key.trans hs.unit_facts.1
  obtain ⟨after, hreleased, -⟩ := Store.update_visits now found hdel hkey hrefits.version hfree
  have hcascaded :=
    Store.cascaded_of_freed hs₁.regular.sound found hdel now hkey hrefits.version hfree
  replace hupdate : s₁.update now (unitSlot k).kind (Resource.encode changed) = (reply, s₂) :=
    hupdate
  have hissued : issued ≤ s₂.created :=
    hs₁.issued_le_serve (r := .update .workUnit (Resource.encode changed)) hupdate
  rw [hupdate] at hcascaded hreleased
  cases hreleased
  have hother : ∀ slot, slot ≠ unitSlot k → s₂.find? slot = s₁.find? slot :=
    fun slot hne => hcascaded.find?_of_childless found
      (fun _ _ hother => hs₁.regular.unit_owns_nothing found hs₁.execution hother) hne
  refine ⟨fun slot hne _ => hother slot hne, stored s₁ u changed, rfl,
    fun hlater' => h _ (Shows.later ⟨hregular, hissued, ?_, ?_⟩ hlater')⟩
  · exact (hcascaded.find?_eq_none_iff _).2 (.inr .root)
  · exact (hother _ (executionSlot_ne k k)).trans hs₁.execution

end modify

end Lifecycle
end CampaignControl
