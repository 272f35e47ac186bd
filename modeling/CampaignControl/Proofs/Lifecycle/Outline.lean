import CampaignControl.Proofs.Concurrency.Contract
import CampaignControl.Proofs.Lifecycle.Change

/-!
# The outline of a lifecycle pass

What has to be shown of the single changes that a lifecycle pass makes so that the pass as a
whole keeps a contract (`Lifecycle.Outline`, `Lifecycle.Outline.reconcile_keeps`). The outline
names what holds between two requests of the pass: that the work unit with some identity is guarded
by its finalizer, that its execution is recorded, and that no execution is stored any more. Others
may work on the store at any time in between, so each of the three has to survive what they do.
-/

namespace CampaignControl
namespace Lifecycle

/-- The slot of the work unit at a key. -/
abbrev unitSlot (key : Key) : Slot := { kind := .workUnit, key }

/-- The slot of the execution at a key. -/
abbrev executionSlot (key : Key) : Slot := { kind := .execution, key }

/-- The store with a changed work unit at a key. -/
abbrev withUnit (s : Store) (key : Key) (object : Object) (changed : WorkUnit) : Store :=
  s.withRevised (unitSlot key) object (Resource.encode changed)

/-- A work unit is stored at a key. -/
structure Stored (I : Store → Prop) (key : Key) (s : Store) (object : Object) (u : WorkUnit) :
    Prop where
  sound : s.Sound
  inv : I s
  found : s.find? (unitSlot key) = some object
  decoded : Resource.decode object = .ok u

/-- A work unit was stored at a key at some time. -/
def Seen (I : Store → Prop) (key : Key) (u : WorkUnit) : Prop :=
  ∃ s object, Stored I key s object u

variable {D I : Store → Prop} {c : Contract D I} {key : Key} {s : Store} {object : Object}
  {u changed : WorkUnit}

theorem Stored.seen (h : Stored I key s object u) : Seen I key u := ⟨s, object, h⟩

theorem Stored.metadata_eq (h : Stored I key s object u) : u.metadata = object.metadata :=
  Resource.metadata_of_decode h.decoded

theorem Stored.key_eq (h : Stored I key s object u) : u.key = key :=
  (Resource.key_of_decode h.decoded).trans (h.sound.key_eq h.found)

theorem Seen.key_eq (h : Seen I key u) : u.key = key := by
  obtain ⟨s, object, h⟩ := h
  exact h.key_eq

/-- A changed work unit is stored as it was written, apart from what the store says of it. -/
theorem Stored.withUnit (h : Stored I key s object u)
    (hkey : changed.metadata.key = u.metadata.key) (hinv : I (withUnit s key object changed)) :
    Stored I key (withUnit s key object changed) (s.revised object (Resource.encode changed))
      (Resource.setMetadata (s.revised object (Resource.encode changed)).metadata changed) where
  sound := h.sound.withRevised h.found (hkey.trans h.key_eq)
  inv := hinv
  found := by rw [Store.find?_withRevised, if_pos rfl]
  decoded := Resource.decode_stored _ _

/-- What the changes of a lifecycle pass over the work unit at a key come to, under a contract. -/
structure Outline (c : Contract D I) (key : Key) (Guarded : Option Uid → Store → Prop)
    (Recorded Bare : Store → Prop) : Prop where
  guarded_later : ∀ {uid s s'}, c.Later s s' → Guarded uid s → Guarded uid s'
  recorded_later : ∀ {s s'}, c.Later s s' → Recorded s → Recorded s'
  bare_later : ∀ {s s'}, c.Later s s' → Bare s → Bare s'
  guarded : ∀ {s object u}, Stored I key s object u →
    u.metadata.hasFinalizer WorkUnit.finalizer → Guarded u.metadata.uid s
  recorded : ∀ {uid s object u}, Stored I key s object u → Guarded uid s →
    u.status.execution.isSome → Recorded s
  /-- The execution of a work unit has been deleted. -/
  bare : ∀ {s s' u}, s.Sound → I s → Seen I key u → s.Deletions s' →
    ((∀ object, s.find? (executionSlot (u.status.execution.getD u.key)) = some object →
        object.metadata.finalizers = []) →
      s'.find? (executionSlot (u.status.execution.getD u.key)) = none) → Bare s'
  guard : ∀ {s object u changed}, Stored I key s object u → Lifecycle.guard u = (changed, some ()) →
    I (withUnit s key object changed) ∧ c.guar s (withUnit s key object changed)
  release : ∀ {s object u changed}, Stored I key s object u → Bare s →
    Lifecycle.release u = (changed, some ()) →
    I (withUnit s key object changed) ∧ c.guar s (withUnit s key object changed)
  create : ∀ {s u} (now : Instant), s.Sound → I s → Guarded u.metadata.uid s → Seen I key u →
    s.find? (executionSlot key) = none →
    I (s.withNew now (executionSlot key) (Resource.encode u.toExecution)) ∧
      c.guar s (s.withNew now (executionSlot key) (Resource.encode u.toExecution)) ∧
      Guarded u.metadata.uid (s.withNew now (executionSlot key) (Resource.encode u.toExecution))
  record : ∀ (uid : Option Uid) {s object u changed now}, Stored I key s object u → Guarded uid s →
    recordExecution now key u = (changed, some ()) →
    I (withUnit s key object changed) ∧ c.guar s (withUnit s key object changed) ∧
      ∀ {s'}, (withUnit s key object changed).Deletions s' → Recorded s'
  follow : ∀ {s object u moved observation started now}, Stored I key s object u → Recorded s →
    u.advance? observation started now = some moved →
    I (withUnit s key object moved) ∧ c.guar s (withUnit s key object moved)

/-! ## The parts of a pass -/

theorem announce_keeps (correlation : Uid) (unit : WorkUnit) (old : WorkUnit.Phase) :
    (announce correlation unit old).Keeps c (fun _ _ => True) s := by
  unfold announce
  dsimp only
  split
  · exact .bind (.measure _ fun _ => .publish _ fun _ => trivial)
  · exact .publish _ fun _ => trivial

namespace Outline

variable {Guarded : Option Uid → Store → Prop} {Recorded Bare : Store → Prop}
  (o : Outline c key Guarded Recorded Bare)
  (settings : Settings) (correlation : Uid) (now : Instant)
include o

theorem finalize_keeps (hseen : Seen I key u) :
    (finalize settings correlation u).Keeps c (fun _ _ => True) s := by
  unfold finalize
  split
  · refine .bind (.delete fun {s₁ s₂ reply} hlater hdel hgone => ?_)
    have hreleased : (∀ e, reply = .error e → e.isNotFound) →
        (do let _ ← modifyUnit settings u.key Lifecycle.release
            publish correlation u .finalized : Pass Unit).Keeps c (fun _ _ => True) s₂ := by
      intro hnot
      have hbare := o.bare hlater.sound hlater.inv hseen hdel (hgone hnot)
      rw [hseen.key_eq]
      refine .bind (.modify release_keepsPlace (fun _ _ => ?_) (fun _ _ _ _ => ?_)
        fun hlater₃ hfind hdecode hchange => ?_)
      · exact .publish _ fun _ => trivial
      · exact .publish _ fun _ => trivial
      · obtain ⟨hinv, hguar⟩ := o.release ⟨hlater₃.sound, hlater₃.inv, hfind, hdecode⟩
          (o.bare_later hlater₃ hbare) hchange
        exact ⟨hinv, hguar, fun _ _ => .publish _ fun _ => trivial⟩
    cases reply with
    | ok => exact hreleased nofun
    | error e =>
      dsimp only
      split
      · next hnot => exact hreleased fun e' h => by cases h; exact hnot
      · exact .bind (.throw _)
  · exact .pure trivial

theorem deleteRecord_keeps (reason : Event.Payload) (hseen : Seen I key u) :
    (deleteRecord settings correlation u reason).Keeps c (fun _ _ => True) s := by
  unfold deleteRecord
  refine .bind (.delete fun {s₁ s₂ reply} _ _ _ => ?_)
  cases reply with
  | error e =>
    dsimp only
    split
    · exact .pure trivial
    · exact .throw _
  | ok =>
    refine .bind (.publish _ fun _ => ?_)
    rw [hseen.key_eq]
    refine .bind (.find? (fun {s₃ object current} hlater hfind hdecode => ?_) fun _ _ => ?_)
    · dsimp only
      split
      · exact o.finalize_keeps settings correlation
          (Stored.seen ⟨hlater.sound, hlater.inv, hfind, hdecode⟩)
      · exact .pure trivial
    · exact .pure trivial

theorem retainOrClean_keeps (hseen : Seen I key u) :
    (retainOrClean settings correlation now u).Keeps c (fun _ _ => True) s := by
  unfold retainOrClean
  split
  · split
    · refine .bind ((o.deleteRecord_keeps settings correlation _ hseen).mono fun _ _ _ => ?_)
      exact .pure trivial
    · exact .pure trivial
  · exact .pure trivial

/-- An execution that is there is recorded. The pass goes on with `rest`. -/
theorem record_keeps {execution : Execution}
    {rest : Option (WorkUnit × Option Unit) → Pass (Option (WorkUnit × Execution))}
    (hseen : Seen I key u) (hkey : execution.key = key) (hguarded : Guarded u.metadata.uid s)
    (hnone : rest none = pure none)
    (hsome : ∀ updated note, rest (some (updated, note)) = do
      publish correlation updated (.executionCreated execution.key u.spec.batchIndex)
      return some (updated, execution)) :
    (modifyUnit settings u.key (recordExecution now execution.key) >>= rest).Keeps c
      (fun result s => result.isSome → Recorded s) s := by
  have hpublish : ∀ {s₁ : Store} (updated : WorkUnit) (note : Option Unit), Recorded s₁ →
      (rest (some (updated, note))).Keeps c (fun result s => result.isSome → Recorded s) s₁ := by
    intro s₁ updated note hrecorded
    rw [hsome]
    exact .bind (.publish _ fun hlater => .pure fun _ => o.recorded_later hlater hrecorded)
  rw [hkey, hseen.key_eq]
  refine .bind (.modify (recordExecution_keepsPlace ..) (fun _ _ => ?_)
    (fun hlater hfind hdecode hchange => ?_) fun hlater hfind hdecode hchange => ?_)
  · rw [hnone]
    exact .pure fun h => by cases h
  · refine hpublish _ _ (o.recorded ⟨hlater.sound, hlater.inv, hfind, hdecode⟩
      (o.guarded_later hlater hguarded) (isSome_of_recordExecution_none hchange))
  · obtain ⟨hinv, hguar, hrecorded⟩ := o.record _ ⟨hlater.sound, hlater.inv, hfind, hdecode⟩
      (o.guarded_later hlater hguarded) hchange
    exact ⟨hinv, hguar, fun hdel _ => hpublish _ _ (hrecorded hdel)⟩

/-- The execution is there and has been recorded after it has been started. -/
theorem startExecution_keeps (hseen : Seen I key u) (hguarded : Guarded u.metadata.uid s) :
    (startExecution settings correlation now u).Keeps c
      (fun result s => result.isSome → Recorded s) s := by
  unfold startExecution
  refine .bind (.create (fun {s₁} created hlater hnone => ?_) fun {s₁} e hlater => ?_)
  · have hslot : Resource.slot u.toExecution = executionSlot key :=
      congrArg (Slot.mk _) hseen.key_eq
    rw [hslot] at hnone ⊢
    obtain ⟨hinv, hguar, hguarded₁⟩ := o.create created hlater.sound hlater.inv
      (o.guarded_later hlater hguarded) hseen hnone
    refine ⟨hinv, hguar, .bind (.pure ?_)⟩
    exact o.record_keeps settings correlation now hseen hseen.key_eq hguarded₁ rfl fun _ _ => rfl
  · dsimp only
    split
    · refine .bind (.get fun {s₂ object execution} hlater₂ hfind hdecode => ?_)
      have hkey : execution.key = key := (Resource.key_of_decode hdecode).trans
        ((hlater₂.sound.key_eq hfind).trans hseen.key_eq)
      exact o.record_keeps settings correlation now hseen hkey
        (o.guarded_later (hlater.trans hlater₂) hguarded) rfl fun _ _ => rfl
    · exact .bind (.throw _)

theorem takeOver_keeps (execution : Execution) (hrecorded : Recorded s) :
    (takeOver settings correlation now key execution).Keeps c (fun _ _ => True) s := by
  have hgoOn : ∀ {s₁ : Store} (unit : WorkUnit), Seen I key unit →
      (if unit.status.phase.isTerminal then retainOrClean settings correlation now unit
        else return .afterSeconds settings.requeue.whileActive : Pass Action).Keeps c
        (fun _ _ => True) s₁ := by
    intro s₁ unit hseen
    split
    · exact o.retainOrClean_keeps settings correlation now hseen
    · exact .pure trivial
  unfold takeOver
  refine .bind (.modify (follow_keepsPlace ..) (fun _ _ => ?_)
    (fun hlater hfind hdecode hchange => ?_)
    fun {s₁ object current moved old} hlater hfind hdecode hchange => ?_)
  · exact .pure trivial
  · have hstored : Stored I key _ _ _ := ⟨hlater.sound, hlater.inv, hfind, hdecode⟩
    cases eq_of_follow_none hchange
    exact hgoOn _ hstored.seen
  · have hstored : Stored I key _ _ _ := ⟨hlater.sound, hlater.inv, hfind, hdecode⟩
    have hmoved := advance?_of_follow hchange
    obtain ⟨hinv, hguar⟩ := o.follow hstored (o.recorded_later hlater hrecorded) hmoved
    have hseen := (hstored.withUnit (retains_advance? hmoved).key hinv).seen
    refine ⟨hinv, hguar, fun {s₂} _ _ => .bind ?_⟩
    exact (announce_keeps correlation _ _).mono fun _ _ _ => hgoOn _ hseen

theorem passOver_keeps (hseen : Seen I key u) (hguarded : Guarded u.metadata.uid s)
    (hrecorded : u.status.execution.isSome → Recorded s) :
    (passOver settings correlation now key u).Keeps c (fun _ _ => True) s := by
  unfold passOver
  split
  · exact o.retainOrClean_keeps settings correlation now hseen
  · split
    · refine .bind ((o.startExecution_keeps settings correlation now hseen hguarded).mono
        fun result s₁ h => ?_)
      cases result with
      | none => exact .pure trivial
      | some started => exact o.takeOver_keeps settings correlation now _ (h rfl)
    · next recorded hsome =>
      refine .bind (.find? (fun {s₁ object execution} hlater _ _ => ?_) fun _ _ => ?_)
      · exact o.takeOver_keeps settings correlation now execution
          (o.recorded_later hlater (hrecorded (by rw [hsome]; rfl)))
      · refine .bind ((o.deleteRecord_keeps settings correlation _ hseen).mono fun _ _ _ => ?_)
        exact .pure trivial

theorem pass_keeps : (pass settings key now).Keeps c (fun _ _ => True) s := by
  unfold pass
  refine .bind (.find? (fun {s₁ object unit} hlater hfind hdecode => ?_) fun _ _ => ?_)
  case refine_2 => exact .pure trivial
  have hstored : Stored I key s₁ object unit := ⟨hlater.sound, hlater.inv, hfind, hdecode⟩
  refine .bind (.correlate fun {s₂} correlation hlater₂ => ?_)
  split
  · refine .bind ((o.finalize_keeps settings correlation hstored.seen).mono fun _ _ _ => ?_)
    exact .pure trivial
  · split
    · next hfinalizer =>
      have hguarded := o.guarded hstored hfinalizer
      exact o.passOver_keeps settings correlation now hstored.seen
        (o.guarded_later hlater₂ hguarded)
        fun hsome => o.recorded_later hlater₂ (o.recorded hstored hguarded hsome)
    · refine .bind (.modify guard_keepsPlace (fun _ _ => ?_)
        (fun {s₃ object current same} hlater₃ hfind hdecode hchange => ?_)
        fun {s₃ object current changed note} hlater₃ hfind hdecode hchange => ?_)
      · exact .pure trivial
      · have hstored : Stored I key _ _ _ := ⟨hlater₃.sound, hlater₃.inv, hfind, hdecode⟩
        obtain ⟨rfl, hfinalizer⟩ := eq_of_guard_none hchange
        have hguarded := o.guarded hstored hfinalizer
        exact o.passOver_keeps settings correlation now hstored.seen hguarded
          (o.recorded hstored hguarded)
      · have hstored : Stored I key _ _ _ := ⟨hlater₃.sound, hlater₃.inv, hfind, hdecode⟩
        obtain ⟨hinv, hguar⟩ := o.guard hstored hchange
        have hstored' := hstored.withUnit (retains_guard hchange).key hinv
        have hfinalizer : changed.metadata.hasFinalizer WorkUnit.finalizer := by
          rw [eq_of_guard hchange]
          exact Metadata.hasFinalizer_addFinalizer
        refine ⟨hinv, hguar, fun _ hkept => ?_⟩
        rw [hkept (Metadata.ne_nil_of_hasFinalizer hfinalizer)]
        have hguarded := o.guarded hstored' hfinalizer
        exact o.passOver_keeps settings correlation now hstored'.seen hguarded
          (o.recorded hstored' hguarded)

/-- A pass whose changes keep a contract keeps it, counted or not. -/
theorem reconcile_keeps :
    (reconcile settings key now).Keeps c (fun _ _ => True) s := by
  unfold reconcile
  refine .bind (Program.Keeps.mono (o.pass_keeps settings now) fun result s₁ _ => ?_)
  cases result with
  | ok action => exact trivial
  | error e => exact .bind (.request id fun _ _ => trivial)

end Outline
end Lifecycle
end CampaignControl
