import CampaignControl.Proofs.Fleet.Sites

/-!
# Passes come to visits

Each part of a lifecycle pass keeps to the key of its work unit and comes to the part of the visit
that stands for it, one lemma for each function of the pass. They follow from what the requests at a
key come to; what a function leaves behind is what its visit says (`Lifecycle.Comes`).

Nothing fails on the way: the finalizer is there when the execution is created, a change is made in
the first attempt, and what is to be deleted is either there or has gone already
(`Lifecycle.reconcile_settles`).
-/

namespace CampaignControl
namespace Lifecycle

variable {issued : Nat} {k : Key} {s : Store} {u : WorkUnit} {e : Execution}
  {execution : Option Execution} {log : List Event}

theorem about_of_timeless {u' : WorkUnit} (h : u'.timeless = u.timeless)
    (payload : Event.Payload) : about u' payload = about u payload := by
  show about u'.timeless payload = about u.timeless payload
  rw [h]

/-- A pass has come to what a visit says. -/
def Comes (issued : Nat) (k : Key) (v : Visit) (before : List Event) (action : Action)
    (log : List Event) (s : Store) : Prop :=
  action = v.action ∧ log = before ++ v.events ∧
    ∃ site, Shows issued k site s ∧ site.settled issued = v.site

theorem Comes.after {v : Visit} {event : Event} {action : Action} {log' : List Event}
    (h : Comes issued k v (log ++ [event]) action log' s) :
    Comes issued k (v.after event) log action log' s := by
  obtain ⟨haction, hlog, hsite⟩ := h
  refine ⟨haction, ?_, hsite⟩
  rw [hlog, List.append_assoc]
  rfl

/-- Nothing is stored at the key any more. -/
theorem Comes.finalize {log' : List Event} (hs : Shows issued k {} s)
    (hlog : log' = log ++ [about u .finalized]) :
    Comes issued k (.finalize u) log .awaitChange log' s := ⟨rfl, hlog, {}, hs, rfl⟩

section
variable (settings : Settings) (correlation : Uid) (now : Instant)

/-- A work unit that is to be deleted goes, and its execution before it. -/
theorem finalize_settles {post : Unit → List Event → Store → Prop}
    (hs : Shows issued k ⟨some u, execution⟩ s) (hdel : u.metadata.isDeleting)
    (h : ∀ {s₁ : Store}, Shows issued k {} s₁ → post () (log ++ [about u .finalized]) s₁) :
    (finalize settings correlation u).Settles (atKey issued k) post log s := by
  obtain ⟨hkey, hrecorded, hfin, hheld⟩ := hs.unit_facts
  have hguarded := hheld hdel
  have hexecution : u.status.execution.getD u.key = k := by
    cases hsome : u.status.execution with
    | none => exact hkey
    | some key => exact hrecorded key hsome
  have hchange : release u =
      ({ u with metadata := u.metadata.removeFinalizer WorkUnit.finalizer }, some ()) := by
    unfold release
    rw [if_pos hguarded]
  have hfree : (u.metadata.removeFinalizer WorkUnit.finalizer).finalizers = [] := by
    refine List.filter_eq_nil_iff.2 fun f hf => ?_
    rw [hfin f hf]
    simp
  have hrest : ∀ {s₁ : Store}, Shows issued k ⟨some u, none⟩ s₁ →
      (do let _ ← modifyUnit settings u.key release
          publish correlation u .finalized : Pass Unit).Settles (atKey issued k) post log s₁ := by
    intro s₁ hs₁
    apply Pass.Settles.bind
    rw [hkey]
    apply modifyUnit_released hs₁ hchange rfl hdel hfree
    intro s₂ written hs₂
    exact Pass.Settles.publish _ fun hlater => h (hs₂.later hlater)
  unfold finalize
  rw [if_pos hguarded, hexecution]
  apply Pass.Settles.bind
  apply deleteExecution_settles hs
  intro s₁ reply hreply hs₁
  cases reply with
  | ok => exact hrest hs₁
  | error e =>
    dsimp only
    rw [if_pos (hreply e rfl)]
    exact hrest hs₁

theorem deleteRecord_settles {reason : Event.Payload} {post : Unit → List Event → Store → Prop}
    (hs : Shows issued k ⟨some u, execution⟩ s)
    (hguarded : u.metadata.hasFinalizer WorkUnit.finalizer)
    (h : ∀ {s₁ : Store}, Shows issued k {} s₁ →
      post () (log ++ [about u reason] ++ [about u .finalized]) s₁) :
    (deleteRecord settings correlation u reason).Settles (atKey issued k) post log s := by
  obtain rfl : u.key = k := hs.unit_facts.1
  unfold deleteRecord
  apply Pass.Settles.bind
  apply deleteUnit_settles hs hguarded
  intro s₁ marked hs₁ hdel hkey hcampaign
  apply Pass.Settles.bind
  apply Pass.Settles.publish
  intro s₂ hlater
  apply Pass.Settles.bind
  apply Pass.Settles.find? fun hlater' => ((hs₁.later hlater).later hlater').found?_unit
  intro s₃ hlater'
  dsimp only
  rw [if_pos hdel]
  apply finalize_settles _ _ ((hs₁.later hlater).later hlater') hdel
  intro s₄ hs₄
  have habout : about marked .finalized = about u .finalized := by
    unfold about
    rw [hkey, hcampaign]
  rw [habout]
  exact h hs₄

theorem retainOrClean_settles (hs : Shows issued k ⟨some u, execution⟩ s)
    (hguarded : u.metadata.hasFinalizer WorkUnit.finalizer) :
    (retainOrClean settings correlation now u).Settles (atKey issued k)
      (Comes issued k (.retain settings now u.timeless (execution.map (.settled issued))) log)
      log s := by
  have hstays : ∀ {action : Action} {s₁ : Store}, Later issued k s s₁ →
      Comes issued k { site := ⟨some u.timeless, execution.map (.settled issued)⟩, action } log
        action log s₁ :=
    fun hlater => ⟨rfl, (List.append_nil log).symm, _, hs.later hlater, rfl⟩
  unfold retainOrClean Visit.retain
  rw [WorkUnit.timeless_retentionLeft?]
  cases u.retentionLeft? settings.retention now with
  | none => exact .pure hstays
  | some left =>
    dsimp only
    split
    · apply Pass.Settles.bind
      apply deleteRecord_settles _ _ hs hguarded
      intro s₁ hs₁
      exact .pure fun hlater => .after (.finalize (hs₁.later hlater) rfl)
    · exact .pure hstays

theorem announce_settles {old : WorkUnit.Phase} {post : Unit → List Event → Store → Prop}
    (h : ∀ {s₁ : Store}, Later issued k s s₁ →
      post () (log ++ [about u (.phaseChanged old u.status.phase)]) s₁) :
    (announce correlation u old).Settles (atKey issued k) post log s := by
  unfold announce
  dsimp only
  split
  · apply Pass.Settles.bind
    apply Pass.Settles.measure
    intro s₁ hlater
    exact Pass.Settles.publish _ fun hlater' => h (hlater.trans hlater')
  · exact Pass.Settles.publish _ h

theorem takeOver_settles (hs : Shows issued k ⟨some u, some e⟩ s)
    (hguarded : u.metadata.hasFinalizer WorkUnit.finalizer) :
    (takeOver settings correlation now k e).Settles (atKey issued k)
      (Comes issued k (.takeOver settings now u.timeless (e.settled issued)) log) log s := by
  have hgoOn : ∀ {s₁ : Store} {u : WorkUnit} {log : List Event},
      Shows issued k ⟨some u, some e⟩ s₁ → u.metadata.hasFinalizer WorkUnit.finalizer →
      (if u.status.phase.isTerminal then retainOrClean settings correlation now u
        else return .afterSeconds settings.requeue.whileActive : Pass Action).Settles
        (atKey issued k) (Comes issued k (.goOn settings now u.timeless (e.settled issued)) log)
        log s₁ := by
    intro s₁ u log hs₁ hguarded
    unfold Visit.goOn
    rw [WorkUnit.timeless_status]
    split
    · exact retainOrClean_settles settings correlation now hs₁ hguarded
    · exact .pure fun hlater =>
        ⟨rfl, (List.append_nil log).symm, _, hs₁.later hlater, rfl⟩
  have hignores := ignoresTime_follow now (Observation.ofStatus e.status) e.status.startTime u
  unfold takeOver Visit.takeOver
  rw [show (e.settled issued).status = e.status from rfl, hignores]
  apply Pass.Settles.bind
  cases hfollow : follow now (Observation.ofStatus e.status) e.status.startTime u with
  | mk moved left =>
    cases left with
    | none =>
      cases eq_of_follow_none hfollow
      apply modifyUnit_same hs hfollow
      intro s₁ hs₁
      exact hgoOn hs₁ hguarded
    | some old =>
      have hadvance := WorkUnit.advance_of_advance? (advance?_of_follow hfollow)
      have hrefits : Refits u moved := by
        rw [Refits, hadvance.metadata]
      apply modifyUnit_written hs hfollow hrefits
      · intro _
        rw [hadvance.metadata]
        exact Metadata.ne_nil_of_hasFinalizer hguarded
      · intro s₁ written htimeless hs₁
        have hguarded' : written.metadata.hasFinalizer WorkUnit.finalizer := by
          rw [← WorkUnit.timeless_hasFinalizer, htimeless, WorkUnit.timeless_hasFinalizer,
            hadvance.metadata]
          exact hguarded
        dsimp only
        rw [← htimeless]
        apply Pass.Settles.bind
        apply announce_settles
        intro s₂ hlater
        refine (hgoOn (hs₁.later hlater) hguarded').mono fun action log' s₃ _ hcomes => ?_
        exact hcomes.after

/-- An execution is there, and is recorded. The pass goes on with `rest`. -/
theorem record_settles
    {rest : Option (WorkUnit × Option Unit) → Pass (Option (WorkUnit × Execution))}
    {post : Option (WorkUnit × Execution) → List Event → Store → Prop}
    (hrest : ∀ updated, rest (some (updated, some ())) = do
      publish correlation updated (.executionCreated e.key u.spec.batchIndex)
      return some (updated, e))
    (hs : Shows issued k ⟨some u, some e⟩ s) (hnone : u.status.execution = none)
    (hguarded : u.metadata.hasFinalizer WorkUnit.finalizer)
    (h : ∀ {s₁ : Store} {updated : WorkUnit},
      updated.timeless = (recordExecution now u.key u.timeless).1 →
      Shows issued k ⟨some updated, some e⟩ s₁ →
      post (some (updated, e)) (log ++ [about u (.executionCreated u.key u.spec.batchIndex)]) s₁) :
    (modifyUnit settings u.key (recordExecution now e.key) >>= rest).Settles (atKey issued k)
      post log s := by
  obtain ⟨hkey, -⟩ := hs.unit_facts
  have hsame : e.key = u.key := hs.key_of_execution.trans hkey.symm
  obtain ⟨changed, hchange⟩ : ∃ changed, recordExecution now u.key u = (changed, some ()) := by
    unfold recordExecution
    rw [hnone]
    exact ⟨_, rfl⟩
  have hrecords := WorkUnit.records_of_recordExecution hchange
  have hrefits : Refits u changed := by
    rw [Refits, hrecords.metadata]
  have htimeless := ignoresTime_recordExecution now u.key u
  rw [hchange] at htimeless
  apply Pass.Settles.bind
  rw [hsame, hkey]
  rw [hkey] at hchange
  apply modifyUnit_written hs hchange hrefits
  · intro _
    rw [hrecords.metadata]
    exact Metadata.ne_nil_of_hasFinalizer hguarded
  · intro s₁ written hwritten hs₁
    rw [hrest]
    apply Pass.Settles.bind
    apply Pass.Settles.publish
    intro s₂ hlater
    refine .pure fun hlater' => ?_
    have habout : about written (.executionCreated e.key u.spec.batchIndex) =
        about u (.executionCreated u.key u.spec.batchIndex) := by
      rw [hsame, about_of_timeless hwritten]
      unfold about WorkUnit.key WorkUnit.campaignKey
      rw [hrecords.metadata, hrecords.spec]
    have hpost := h (hwritten.trans (congrArg Prod.fst htimeless).symm)
      ((hs₁.later hlater).later hlater')
    rw [← habout] at hpost
    exact hpost

theorem startExecution_settles {post : Option (WorkUnit × Execution) → List Event → Store → Prop}
    (hs : Shows issued k ⟨some u, execution⟩ s) (hnone : u.status.execution = none)
    (hguarded : u.metadata.hasFinalizer WorkUnit.finalizer)
    (h : ∀ {s₁ : Store} {updated : WorkUnit} {e : Execution},
      e.settled issued = (execution.map (.settled issued)).getD u.toExecution →
      updated.timeless = (recordExecution now u.key u.timeless).1 →
      Shows issued k ⟨some updated, some e⟩ s₁ →
      post (some (updated, e)) (log ++ [about u (.executionCreated u.key u.spec.batchIndex)]) s₁) :
    (startExecution settings correlation now u).Settles (atKey issued k) post log s := by
  unfold startExecution
  apply Pass.Settles.bind
  apply create_settles hs
  · rintro s₁ created rfl hcreated hs₁
    apply Pass.Settles.bind
    refine .pure fun hlater => ?_
    exact record_settles settings correlation now (fun _ => rfl) (hs₁.later hlater) hnone hguarded
      fun hupdated hs₂ => h hcreated hupdated hs₂
  · rintro s₁ e rfl hs₁
    dsimp only
    have hexists : (StoreError.alreadyExists .execution k).isAlreadyExists = true := rfl
    rw [if_pos hexists]
    apply Pass.Settles.bind
    have hkey : u.toExecution.key = k := hs.unit_facts.1
    rw [hkey]
    apply Pass.Settles.get fun hlater => (hs₁.later hlater).decoded_execution
    intro s₂ hlater
    exact record_settles settings correlation now (fun _ => rfl) (hs₁.later hlater) hnone hguarded
      fun hupdated hs₃ => h rfl hupdated hs₃

theorem passOver_settles (hs : Shows issued k ⟨some u, execution⟩ s)
    (hguarded : u.metadata.hasFinalizer WorkUnit.finalizer) :
    (passOver settings correlation now k u).Settles (atKey issued k)
      (Comes issued k
        (.passOver settings now u.timeless (execution.map (.settled issued))) log) log s := by
  obtain ⟨hkey, hrecorded, -⟩ := hs.unit_facts
  unfold passOver Visit.passOver
  rw [WorkUnit.timeless_status]
  split
  · exact retainOrClean_settles settings correlation now hs hguarded
  · cases hexecution : u.status.execution with
    | none =>
      dsimp only
      rw [if_pos Option.isNone_none]
      apply Pass.Settles.bind
      apply startExecution_settles settings correlation now hs hexecution hguarded
      intro s₁ updated e hsettled hupdated hs₁
      have hguarded' : updated.metadata.hasFinalizer WorkUnit.finalizer := by
        rw [← WorkUnit.timeless_hasFinalizer, hupdated, metadata_recordExecution,
          WorkUnit.timeless_hasFinalizer]
        exact hguarded
      refine (takeOver_settles settings correlation now hs₁ hguarded').mono
        fun action log' s₂ _ hcomes => ?_
      unfold Visit.start
      rw [hsettled, hupdated] at hcomes
      exact hcomes.after
    | some recorded =>
      obtain rfl : recorded = k := hrecorded recorded hexecution
      dsimp only
      rw [if_neg (show ¬ (some recorded).isNone by simp)]
      apply Pass.Settles.bind
      apply Pass.Settles.find? fun hlater => (hs.later hlater).found?_execution
      intro s₁ hlater
      have hs₁ := hs.later hlater
      cases execution with
      | none =>
        apply Pass.Settles.bind
        apply deleteRecord_settles _ _ hs₁ hguarded
        intro s₂ hs₂
        exact .pure fun hlater' => .after (.finalize (hs₂.later hlater') rfl)
      | some e => exact takeOver_settles settings correlation now hs₁ hguarded

end

/-- **A lifecycle pass comes to the visit of its site.** -/
theorem pass_settles (settings : Settings) (now : Instant) {site : Site}
    (hs : Shows issued k site s) :
    (pass settings k now).Settles (atKey issued k)
      (Comes issued k (.pass settings now (site.settled issued)) log) log s := by
  obtain ⟨unit, execution⟩ := site
  unfold pass Visit.pass
  apply Pass.Settles.bind
  apply Pass.Settles.find? fun hlater => (hs.later hlater).found?_unit
  intro s₁ hlater
  have hs₁ := hs.later hlater
  cases unit with
  | none => exact .pure fun hlater' =>
      ⟨rfl, (List.append_nil log).symm, _, hs₁.later hlater', rfl⟩
  | some u =>
    dsimp only [Site.settled, Option.map_some]
    rw [WorkUnit.timeless_isDeleting, ignoresTime_guard]
    apply Pass.Settles.bind
    apply Pass.Settles.correlate
    intro s₂ correlation hlater₂
    have hs₂ := hs₁.later hlater₂
    split
    · next hdel =>
      apply Pass.Settles.bind
      apply finalize_settles _ _ hs₂ hdel
      intro s₃ hs₃
      exact .pure fun hlater' => .finalize (hs₃.later hlater') rfl
    · split
      · next hguarded =>
        have hsame : (guard u).1 = u := by
          unfold guard
          rw [if_pos hguarded]
        rw [hsame]
        exact passOver_settles settings correlation now hs₂ hguarded
      · next hfree =>
        have hchange : guard u =
            ({ u with metadata := u.metadata.addFinalizer WorkUnit.finalizer }, some ()) := by
          unfold guard
          rw [if_neg hfree]
        have hguarded : (u.metadata.addFinalizer WorkUnit.finalizer).hasFinalizer
            WorkUnit.finalizer := Metadata.hasFinalizer_addFinalizer
        have hrefits : Refits u (guard u).1 := by
          rw [hchange, Refits, Metadata.addFinalizer, if_neg hfree]
        rw [hchange] at hrefits ⊢
        apply Pass.Settles.bind
        apply modifyUnit_written hs₂ hchange hrefits fun _ =>
          Metadata.ne_nil_of_hasFinalizer hguarded
        intro s₃ written hwritten hs₃
        have hguarded' : written.metadata.hasFinalizer WorkUnit.finalizer := by
          rw [← WorkUnit.timeless_hasFinalizer, hwritten, WorkUnit.timeless_hasFinalizer]
          exact hguarded
        dsimp only
        rw [← hwritten]
        exact passOver_settles settings correlation now hs₃ hguarded'

/-- Counted or not, a pass does not fail. -/
theorem reconcile_settles (settings : Settings) (now : Instant) {site : Site}
    (hs : Shows issued k site s) :
    (reconcile settings k now).Settles (atKey issued k)
      (fun result log s => ∃ action, result = .ok action ∧
        Comes issued k (.pass settings now (site.settled issued)) [] action log s) [] s := by
  unfold reconcile
  refine Program.Settles.bind (Program.Settles.mono (pass_settles settings now hs) ?_)
  intro result log s₁ hself hresult
  obtain ⟨action, rfl, -⟩ := hresult s₁ hself
  exact fun s₂ hlater => hresult s₂ hlater

end Lifecycle
end CampaignControl
