import CampaignControl.Proofs.Condition
import Mathlib.Data.List.Induction

/-!
# Histories of conditions

What a list of conditions tells of the calls that it has come from, when nothing but
`Condition.set` has made it. There is one entry for each type. It says what the last call for its
type said, and since when: since the first of the last calls for its type that all had one status
(`Condition.IsLastRun`), however many calls for other types came between. This is `recounts_setAll`.
-/

namespace CampaignControl
namespace Condition

variable {calls run conditions : List Condition} {new entry : Condition}

/-- The conditions after calls on an empty list, one after the other. -/
def setAll (calls : List Condition) : List Condition :=
  calls.foldl (fun conditions new => new.set conditions) []

theorem setAll_concat (calls : List Condition) (new : Condition) :
    setAll (calls ++ [new]) = new.set (setAll calls) := by
  rw [setAll, List.foldl_append]
  rfl

/-- The calls for one type. -/
def callsFor (type : String) (calls : List Condition) : List Condition :=
  calls.filter (·.type = type)

theorem callsFor_concat_self (calls : List Condition) (new : Condition) :
    callsFor new.type (calls ++ [new]) = callsFor new.type calls ++ [new] := by
  simp [callsFor]

theorem callsFor_concat_of_ne {type : String} (h : type ≠ new.type) (calls : List Condition) :
    callsFor type (calls ++ [new]) = callsFor type calls := by
  simp [callsFor, Ne.symm h]

/-! ## The last calls with one status -/

/-- All of these have the same status. -/
def Steady (run : List Condition) : Prop := ∀ c ∈ run, ∀ c' ∈ run, c.status = c'.status

/-- Of the steady runs of calls that end with the last one, this is the longest. -/
structure IsLastRun (calls run : List Condition) : Prop where
  ends : run <:+ calls
  steady : Steady run
  longest : ∀ other, other <:+ calls → Steady other → other <:+ run

theorem Steady.of_concat (h : Steady (run ++ [new])) : Steady run :=
  fun c hc c' hc' => h c (List.mem_append_left _ hc) c' (List.mem_append_left _ hc')

theorem steady_singleton (c : Condition) : Steady [c] := by
  simp [Steady]

/-- The last call belongs to the last run. -/
theorem IsLastRun.mem (h : IsLastRun calls run) {last : Condition}
    (hlast : calls.getLast? = some last) : last ∈ run := by
  obtain ⟨front, rfl⟩ := List.getLast?_eq_some_iff.1 hlast
  have hone := h.longest [last] (List.suffix_append front [last]) (steady_singleton last)
  exact hone.subset (List.mem_singleton_self last)

/-- A call with the status of the one before goes on with the run. -/
theorem IsLastRun.concat (h : IsLastRun calls run) {last : Condition}
    (hlast : calls.getLast? = some last) (hstatus : last.status = new.status) :
    IsLastRun (calls ++ [new]) (run ++ [new]) where
  ends := List.suffix_concat_iff.2 (.inr ⟨run, rfl, h.ends⟩)
  steady := by
    have hall : ∀ c ∈ run ++ [new], c.status = new.status := by
      intro c hc
      rcases List.mem_append.1 hc with hc | hc
      · exact (h.steady c hc last (h.mem hlast)).trans hstatus
      · rw [List.mem_singleton.1 hc]
    exact fun c hc c' hc' => (hall c hc).trans (hall c' hc').symm
  longest other hends hsteady := by
    rcases List.suffix_concat_iff.1 hends with rfl | ⟨front, rfl, hfront⟩
    · exact List.nil_suffix
    · exact List.suffix_concat_iff.2 (.inr ⟨front, rfl, h.longest front hfront hsteady.of_concat⟩)

/-- A call with another status than the one before begins a run. -/
theorem isLastRun_singleton (h : ∀ last ∈ calls.getLast?, last.status ≠ new.status) :
    IsLastRun (calls ++ [new]) [new] where
  ends := List.suffix_append calls [new]
  steady := steady_singleton new
  longest other hends hsteady := by
    rcases List.suffix_concat_iff.1 hends with rfl | ⟨front, rfl, before, rfl⟩
    · exact List.nil_suffix
    · -- a longer run would have the last call before in it
      rcases List.eq_nil_or_concat front with rfl | ⟨rest, last, rfl⟩
      · exact List.suffix_rfl
      · refine absurd (hsteady last (by simp) new (by simp)) (h last ?_)
        simp

/-! ## Entries -/

/-- What an entry tells of the calls for its type. -/
structure Tells (calls : List Condition) (entry : Condition) : Prop where
  /-- It says what the last one said. -/
  latest : ∃ last, calls.getLast? = some last ∧ entry.Agrees last
  /-- It has been so since the first of the last ones with one status. -/
  since : ∃ run first, IsLastRun calls run ∧ run.head? = some first ∧ entry.since = first.since

theorem revise_since (old new : Condition) :
    (old.revise new).since = if old.status = new.status then old.since else new.since := by
  unfold revise
  split
  · split <;> rfl
  · rfl

theorem tells_singleton (new : Condition) : Tells [new] new where
  latest := ⟨new, rfl, rfl, rfl, rfl, rfl⟩
  since := by
    have hrun : IsLastRun ([] ++ [new]) [new] := isLastRun_singleton fun _ h => nomatch h
    exact ⟨[new], new, hrun, rfl, rfl⟩

/-- One more call. -/
theorem Tells.concat (h : Tells calls entry) (htype : entry.type = new.type) :
    Tells (calls ++ [new]) (entry.revise new) where
  latest := ⟨new, List.getLast?_concat, revise_agrees htype⟩
  since := by
    obtain ⟨last, hlast, -, hstatus, -⟩ := h.latest
    rw [revise_since]
    split
    · next hsame =>
      obtain ⟨run, first, hrun, hfirst, hsince⟩ := h.since
      refine ⟨run ++ [new], first, hrun.concat hlast (hstatus.symm.trans hsame), ?_, hsince⟩
      rw [List.head?_append, hfirst, Option.some_or]
    · next hother =>
      refine ⟨[new], new, isLastRun_singleton fun c hc => ?_, rfl, rfl⟩
      rw [hlast, Option.mem_some_iff] at hc
      rwa [← hc, ← hstatus]

/-! ## Lists -/

/-- A list of conditions recounts calls: it has one entry for each type that has been set, in the
order in which the types came first, and each entry tells of the calls for its type. -/
structure Recounts (calls conditions : List Condition) : Prop where
  distinct : Distinct conditions
  types : conditions.map (·.type) = (calls.map (·.type)).eraseDups
  tells : ∀ entry ∈ conditions, Tells (callsFor entry.type calls) entry

theorem map_type_set (new : Condition) (conditions : List Condition) :
    (new.set conditions).map (·.type) =
      if new.type ∈ conditions.map (·.type) then conditions.map (·.type)
      else conditions.map (·.type) ++ [new.type] := by
  induction conditions with
  | nil => rfl
  | cons c rest ih =>
    by_cases hc : c.type = new.type
    · rw [set, if_pos hc, List.map_cons, List.map_cons, revise_type hc, hc,
        if_pos List.mem_cons_self]
    · rw [set, if_neg hc, List.map_cons, ih, List.map_cons]
      simp only [List.mem_cons, Ne.symm hc, false_or]
      split <;> rfl

/-- The entries after a call: those of other types, and one that has been revised or added. -/
theorem Distinct.mem_set (h : Distinct conditions) (hmem : entry ∈ new.set conditions) :
    (entry.type ≠ new.type ∧ entry ∈ conditions) ∨
      (∃ old ∈ conditions, old.type = new.type ∧ entry = old.revise new) ∨
      new.type ∉ conditions.map (·.type) ∧ entry = new := by
  induction conditions with
  | nil => exact .inr (.inr ⟨List.not_mem_nil, List.mem_singleton.1 hmem⟩)
  | cons c rest ih =>
    obtain ⟨hnot, hrest⟩ := List.nodup_cons.1 h
    by_cases hc : c.type = new.type
    · rw [Condition.set, if_pos hc] at hmem
      rcases List.mem_cons.1 hmem with rfl | hmem
      · exact .inr (.inl ⟨c, List.mem_cons_self, hc, rfl⟩)
      · refine .inl ⟨fun heq => hnot ?_, List.mem_cons_of_mem _ hmem⟩
        exact List.mem_map.2 ⟨entry, hmem, heq.trans hc.symm⟩
    · rw [Condition.set, if_neg hc] at hmem
      rcases List.mem_cons.1 hmem with rfl | hmem
      · exact .inl ⟨hc, List.mem_cons_self⟩
      · rcases ih hrest hmem with ⟨hne, hmem⟩ | ⟨old, hold, heq⟩ | ⟨hout, heq⟩
        · exact .inl ⟨hne, List.mem_cons_of_mem _ hmem⟩
        · exact .inr (.inl ⟨old, List.mem_cons_of_mem _ hold, heq⟩)
        · refine .inr (.inr ⟨?_, heq⟩)
          rw [List.map_cons, List.mem_cons, not_or]
          exact ⟨Ne.symm hc, hout⟩

theorem recounts_nil : Recounts [] [] where
  distinct := List.nodup_nil
  types := rfl
  tells _ h := absurd h List.not_mem_nil

theorem Recounts.mem_types (h : Recounts calls conditions) {type : String} :
    type ∈ conditions.map (·.type) ↔ type ∈ calls.map (·.type) := by
  rw [h.types, List.mem_eraseDups]

theorem Recounts.set (h : Recounts calls conditions) (new : Condition) :
    Recounts (calls ++ [new]) (new.set conditions) where
  distinct := h.distinct.set new
  types := by
    have hcontains : (calls.map (·.type)).contains new.type =
        decide (new.type ∈ conditions.map (·.type)) := by
      rw [← List.elem_eq_contains, List.elem_eq_mem]
      exact decide_eq_decide.2 h.mem_types.symm
    rw [map_type_set, List.map_append, List.map_singleton, List.eraseDups_append, ← h.types,
      List.cons_removeAll, List.nil_removeAll, hcontains]
    by_cases hmem : new.type ∈ conditions.map (·.type)
    · rw [if_pos hmem, decide_eq_true hmem]
      exact (List.append_nil _).symm
    · rw [if_neg hmem, decide_eq_false hmem]
      rfl
  tells entry hentry := by
    rcases h.distinct.mem_set hentry with ⟨hne, hmem⟩ | ⟨old, hold, htype, rfl⟩ | ⟨hout, rfl⟩
    · rw [callsFor_concat_of_ne hne]
      exact h.tells entry hmem
    · rw [revise_type htype, callsFor_concat_self, ← htype]
      exact (h.tells old hold).concat htype
    · have hnone : callsFor entry.type calls = [] := by
        refine List.filter_eq_nil_iff.2 fun c hc heq => hout (h.mem_types.2 ?_)
        exact List.mem_map.2 ⟨c, hc, of_decide_eq_true heq⟩
      rw [callsFor_concat_self, hnone]
      exact tells_singleton entry

theorem setAll_recounts (calls : List Condition) : Recounts calls (setAll calls) := by
  induction calls using List.reverseRecOn with
  | nil => exact recounts_nil
  | append_singleton calls new ih =>
    rw [setAll_concat]
    exact ih.set new

/-- What is news, and that only, changes the list. -/
theorem isNews_iff_set_ne (new : Condition) (conditions : List Condition) :
    new.isNews conditions = true ↔ new.set conditions ≠ conditions := by
  constructor
  · intro hnews hsame
    have hnot := not_isNews_set_at new new.since conditions
    rw [hsame, hnews] at hnot
    cases hnot
  · intro hchanged
    by_contra hnot
    exact hchanged (set_of_not_isNews (Bool.not_eq_true _ ▸ hnot))

/-- **Conditions recount their history.** After any calls on an empty list there is one entry for
each type, in the order in which the types came first. An entry has the status, the reason and the
message of the last call for its type, and the time of the first call of the longest run of calls
for its type that ends with the last one and has one status. A further call tells something new
exactly when it changes the list, and it leaves the entries of other types as they are. -/
theorem calls_recounted (calls : List Condition) :
    Recounts calls (setAll calls) ∧
      ∀ new : Condition,
        (new.isNews (setAll calls) = true ↔ new.set (setAll calls) ≠ setAll calls) ∧
          (new.set (setAll calls)).filter (·.type ≠ new.type) =
            (setAll calls).filter (·.type ≠ new.type) :=
  ⟨setAll_recounts calls, fun new => ⟨isNews_iff_set_ne new _, filter_set new _⟩⟩

end Condition
end CampaignControl
