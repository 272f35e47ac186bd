import CampaignControl.Proofs.Concurrency.Ensures
import CampaignControl.Proofs.Concurrency.Milestones

/-!
# Creations by tasks

An identity is given once: two creations by the tasks of a world that have given the same one are
the same exchange (`Rules.Reachable.creation_eq`).
-/

namespace CampaignControl

universe u

variable {R : Repertoire.{u}} {rules : Rules R} {w w' : World R}

/-- A task of the world has been answered an exchange. -/
def World.Past (w : World R) (e : Exchange) : Prop := ∃ t ∈ w.tasks, e ∈ t.past

namespace Rules

/-- With a move at most one exchange is new, and it is with the store as it was. -/
theorem Move.past_cases (h : rules.Move w w') {e : Exchange} (he : w'.Past e) :
    w.Past e ∨ e.before = w.store ∧ ∀ e', w'.Past e' → w.Past e' ∨ e' = e := by
  obtain ⟨t, ht, he⟩ := he
  cases h with
  | start job =>
    rcases List.mem_append.1 ht with ht | ht
    · exact .inl ⟨t, ht, he⟩
    · cases List.mem_singleton.1 ht
      cases he
  | outside => exact .inl ⟨t, ht, he⟩
  | @abandon front back t₀ htasks =>
    have hold : ∀ t ∈ front ++ t₀ :: back, ∀ e ∈ t.past, w.Past e :=
      fun t ht e he => ⟨t, htasks ▸ ht, he⟩
    have hnow : ∀ t ∈ front ++ t₀.abandon :: back, ∀ e ∈ t.past, w.Past e :=
      Task.forall_replace hold (hold t₀ (List.mem_append_right _ List.mem_cons_self))
    exact .inl (hnow t ht e he)
  | @answer front back t₀ r next reply s htasks =>
    have hold : ∀ t ∈ front ++ t₀ :: back, ∀ e ∈ t.past, w.Past e :=
      fun t ht e he => ⟨t, htasks ▸ ht, he⟩
    have hnow : ∀ t ∈ front ++ t₀.answered r next reply w.store s :: back, ∀ e ∈ t.past,
        w.Past e ∨ e = { request := r, reply, before := w.store, after := s } := by
      refine Task.forall_replace (fun t ht e he => .inl (hold t ht e he)) fun e he => ?_
      rcases List.mem_append.1 he with he | he
      · exact .inl (hold t₀ (List.mem_append_right _ List.mem_cons_self) e he)
      · exact .inr (List.mem_singleton.1 he)
    rcases hnow t ht e he with hpast | rfl
    · exact .inl hpast
    · exact .inr ⟨rfl, fun e' ⟨t', ht', he'⟩ => hnow t' ht' e' he'⟩

/-- A creation is with a store in which fewer identities had been given than now. -/
theorem Reachable.created_lt (hw : rules.Reachable w) {kind : Kind} {object stored : Object}
    {s s' : Store} (h : w.Past (.creation kind object stored s s')) :
    s.created < w.store.created := by
  obtain ⟨t, ht, he⟩ := h
  have hprecedes := hw.steps.genuine .empty ht _ he
  have hle : s'.created ≤ w.store.created := hprecedes.later.created_le
  have hanswered : (Request.store (.create kind object)).Answered s (.ok stored) s' :=
    hprecedes.answered
  rcases hanswered.create_cases with ⟨now, -, -, rfl⟩ | ⟨e, heq, -, -⟩
  · exact hle
  · cases heq

/-- **An identity is given once.** -/
theorem Reachable.creation_eq (hw : rules.Reachable w) {kind kind' : Kind}
    {object object' stored stored' : Object} {s₁ s₂ s₁' s₂' : Store}
    (h : w.Past (.creation kind object stored s₁ s₂))
    (h' : w.Past (.creation kind' object' stored' s₁' s₂')) (heq : s₁.created = s₁'.created) :
    Exchange.creation kind object stored s₁ s₂ = .creation kind' object' stored' s₁' s₂' := by
  refine hw.induct (P := fun w => w.Past (.creation kind object stored s₁ s₂) →
    w.Past (.creation kind' object' stored' s₁' s₂') →
    Exchange.creation kind object stored s₁ s₂ = .creation kind' object' stored' s₁' s₂') ?_ ?_ h h'
  · rintro - ⟨t, ht, -⟩
    cases ht
  · intro w w' hw ih hstep h h'
    rcases hstep.move.past_cases h with hold | ⟨hbefore, hothers⟩
    · rcases hstep.move.past_cases h' with hold' | ⟨hbefore', -⟩
      · exact ih hold hold'
      · have hlt := hw.created_lt hold
        rw [heq, show s₁' = w.store from hbefore'] at hlt
        exact absurd hlt (Nat.lt_irrefl _)
    · rcases hothers _ h' with hold' | hsame
      · have hlt := hw.created_lt hold'
        rw [← heq, show s₁ = w.store from hbefore] at hlt
        exact absurd hlt (Nat.lt_irrefl _)
      · exact hsame.symm

end Rules
end CampaignControl
