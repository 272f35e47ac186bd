import CampaignControl.Proofs.Concurrency.Modify
import CampaignControl.Proofs.Store.Outcome

/-!
# What programs request

A program asks for nothing out of the blue: what it writes it has made of what it was answered
before. `Program.Heeds` says so of every request of a program, given everything that it has been
answered up to then. The rules for passes (`Pass.Heeds`) take one request at a time, and a change of
an object (`Pass.Heeds.modify`) as the reading and the writing that it may come to.

In a world, the past of a task is what really happened: every exchange took place between two
worlds, the second of which came right after the first (`Rules.Steps.exists_exchange`,
`Rules.Reachable.exists_exchange`).
-/

namespace CampaignControl

universe u

variable {ok : List Exchange → Request → Prop} {past : List Exchange}

/-! ## Programs -/

namespace Program

variable {α β : Type}

/-- Every request of a program is one that `ok` allows after what the program has been answered, and
`post` holds of its value and of all that it has been answered. -/
def Heeds (ok : List Exchange → Request → Prop) (post : α → List Exchange → Prop) :
    Program α → List Exchange → Prop
  | .done a, past => post a past
  | .ask r next, past => ok past r ∧ ∀ (s s' : Store) (reply : r.Reply), s.Sound →
    r.Answered s reply s' →
    (next reply).Heeds ok post (past ++ [{ request := r, reply, before := s, after := s' }])

namespace Heeds

theorem mono {post post' : α → List Exchange → Prop} {p : Program α} (h : p.Heeds ok post past)
    (hpost : ∀ a past, post a past → post' a past) : p.Heeds ok post' past := by
  induction p generalizing past with
  | done a => exact hpost a past h
  | ask r next ih =>
    refine ⟨h.1, ?_⟩
    intro s s' reply hs hanswered
    exact ih reply (h.2 s s' reply hs hanswered)

theorem bind {post : β → List Exchange → Prop} {p : Program α} {f : α → Program β}
    (h : p.Heeds ok (fun a past => (f a).Heeds ok post past) past) :
    (p >>= f).Heeds ok post past := by
  show (p.bind f).Heeds ok post past
  induction p generalizing past with
  | done a => exact h
  | ask r next ih =>
    refine ⟨h.1, ?_⟩
    intro s s' reply hs hanswered
    exact ih reply (h.2 s s' reply hs hanswered)

theorem request {r : Request} {post : r.Reply → List Exchange → Prop} (hok : ok past r)
    (h : ∀ {s s' : Store} {reply : r.Reply}, s.Sound → r.Answered s reply s' →
      post reply (past ++ [{ request := r, reply, before := s, after := s' }])) :
    (Program.request r).Heeds ok post past :=
  ⟨hok, fun _ _ _ hs hanswered => h hs hanswered⟩

/-- What holds of every request holds of all that have been answered in the end. -/
theorem all {P : Request → Prop} {post : α → List Exchange → Prop} {p : Program α}
    (h : p.Heeds (fun past r => ok past r ∧ P r) post past) (hpast : ∀ e ∈ past, P e.request) :
    p.Heeds ok (fun a past' => post a past' ∧ ∀ e ∈ past', P e.request) past := by
  induction p generalizing past with
  | done a => exact ⟨h, hpast⟩
  | ask r next ih =>
    refine ⟨h.1.1, ?_⟩
    intro s s' reply hs hanswered
    apply ih reply (h.2 s s' reply hs hanswered)
    intro e he
    rcases List.mem_append.1 he with he | he
    · exact hpast e he
    · cases List.mem_singleton.1 he
      exact h.1.2

end Heeds
end Program

/-! ## Passes -/

namespace Pass

variable {α β γ δ : Type}

/-- Every request of a pass is one that `ok` allows, and `post` holds of its result, if there is
one. -/
def Heeds (ok : List Exchange → Request → Prop) (post : γ → List Exchange → Prop) (p : Pass γ)
    (past : List Exchange) : Prop :=
  Program.Heeds ok (fun result past => ∀ a, result = .ok a → post a past) p.run past

namespace Heeds

theorem subset_append (past : List Exchange) (e : Exchange) : past ⊆ past ++ [e] :=
  List.subset_append_left ..

theorem mem_append (past : List Exchange) (e : Exchange) : e ∈ past ++ [e] :=
  List.mem_append_right _ List.mem_cons_self

theorem mono {post post' : γ → List Exchange → Prop} {p : Pass γ} (h : p.Heeds ok post past)
    (hpost : ∀ a past, post a past → post' a past) : p.Heeds ok post' past :=
  Program.Heeds.mono h fun _ past h a ha => hpost a past (h a ha)

theorem all {P : Request → Prop} {post : γ → List Exchange → Prop} {p : Pass γ}
    (h : p.Heeds (fun past r => ok past r ∧ P r) post past) (hpast : ∀ e ∈ past, P e.request) :
    p.Heeds ok (fun a past' => post a past' ∧ ∀ e ∈ past', P e.request) past :=
  Program.Heeds.mono (Program.Heeds.all h hpast) fun _ _ hpost a ha => ⟨hpost.1 a ha, hpost.2⟩

theorem pure {post : γ → List Exchange → Prop} {a : γ} (h : post a past) :
    (Pure.pure a : Pass γ).Heeds ok post past := by
  intro a' ha
  cases ha
  exact h

theorem throw {post : γ → List Exchange → Prop} (e : Error) :
    (MonadExcept.throw e : Pass γ).Heeds ok post past := by
  intro a ha
  cases ha

theorem bind {post : δ → List Exchange → Prop} {p : Pass γ} {f : γ → Pass δ}
    (h : p.Heeds ok (fun a past => (f a).Heeds ok post past) past) :
    (p >>= f).Heeds ok post past := by
  show Program.Heeds ok _ (p >>= f).run past
  rw [ExceptT.run_bind]
  apply Program.Heeds.bind
  apply Program.Heeds.mono h
  intro result past hresult
  cases result with
  | ok a => exact hresult a rfl
  | error e => exact throw e

theorem lift {post : γ → List Exchange → Prop} {p : Program γ} (h : p.Heeds ok post past) :
    (Pass.lift p).Heeds ok post past := by
  show Program.Heeds ok _ (Pass.lift p).run past
  rw [Pass.lift, ExceptT.run_lift, map_eq_pure_bind]
  apply Program.Heeds.bind
  apply h.mono
  intro a past hpost a' ha
  cases ha
  exact hpost

theorem outcome {post : Except Error γ → List Exchange → Prop} {p : Pass γ}
    (h : Program.Heeds ok post p.run past) : (Pass.outcome p).Heeds ok post past := lift h

theorem ofStore {post : γ → List Exchange → Prop} {reply : Except StoreError γ}
    (h : ∀ a, reply = .ok a → post a past) : (Pass.ofStore reply).Heeds ok post past := by
  cases reply with
  | ok a => exact pure (h a rfl)
  | error e => exact throw _

theorem correlate {post : Uid → List Exchange → Prop} (hok : ok past .correlate)
    (h : ∀ {past'} uid, past ⊆ past' → post uid past') : Pass.correlate.Heeds ok post past :=
  lift (.request hok fun _ _ => h _ (subset_append ..))

theorem measure {post : Unit → List Exchange → Prop} {m : Measurement}
    (hok : ok past (.measure m)) (h : ∀ {past'}, past ⊆ past' → post () past') :
    (Pass.measure m).Heeds ok post past :=
  lift (.request hok fun _ _ => h (subset_append ..))

theorem publish {post : Unit → List Exchange → Prop} {e : Event} (hok : ok past (.publish e))
    (h : ∀ {past'}, past ⊆ past' → post () past') : (Pass.publish e).Heeds ok post past :=
  lift (.request hok fun _ _ => h (subset_append ..))

theorem delete {kind : Kind} {key : Key} {post : Except StoreError Unit → List Exchange → Prop}
    (hok : ok past (.store (.delete kind key .background)))
    (h : ∀ {past'} reply, past ⊆ past' → post reply past') :
    (Pass.lift (Pass.delete kind key)).Heeds ok post past :=
  lift (.request hok fun _ _ => h _ (subset_append ..))

section resource

variable [Resource α] {key : Key}

theorem find? {post : Option α → List Exchange → Prop}
    (hok : ok past (.store (.get (Resource.kind α) key)))
    (hfound : ∀ {past'} {s : Store} {object : Object} {a : α}, past ⊆ past' →
      .read { kind := Resource.kind α, key } object s ∈ past' → s.Sound →
      s.find? { kind := Resource.kind α, key } = some object → Resource.decode object = .ok a →
      post (some a) past')
    (hnone : ∀ {past'}, past ⊆ past' → post none past') :
    (Pass.find? key : Pass (Option α)).Heeds ok post past := by
  show Program.Heeds ok _ (Pass.find? key : Pass (Option α)).run past
  rw [run_find?]
  refine ⟨hok, ?_⟩
  intro s s' reply hs hanswered found hfound'
  obtain ⟨rfl, hok, -⟩ := hanswered.get_cases
  cases found with
  | none => exact hnone (subset_append ..)
  | some a =>
    obtain ⟨object, rfl, hdecode⟩ := found?_eq_some hfound'
    exact hfound (subset_append ..) (mem_append ..) hs (hok object rfl) hdecode

theorem get {post : α → List Exchange → Prop}
    (hok : ok past (.store (.get (Resource.kind α) key)))
    (h : ∀ {past'} (a : α), past ⊆ past' → post a past') :
    (Pass.get key : Pass α).Heeds ok post past := by
  apply bind
  apply lift
  apply Program.Heeds.request hok
  intro s s' reply hs hanswered
  exact ofStore fun a _ => h a (subset_append ..)

theorem list {filter : Filter} {post : List α → List Exchange → Prop}
    (hok : ok past (.store (.list (Resource.kind α) filter)))
    (h : ∀ {past'} {e : Exchange} {items : List α}, past ⊆ past' → e ∈ past' →
      e.request = .store (.list (Resource.kind α) filter) → e.before.Sound →
      (e.before.list (Resource.kind α) filter).mapM Resource.decode = .ok items →
      post items past') :
    (Pass.list filter : Pass (List α)).Heeds ok post past := by
  apply bind
  apply lift
  apply Program.Heeds.request hok
  intro s s' reply hs hanswered
  obtain ⟨rfl, hobjects⟩ := hanswered.list_cases
  cases reply with
  | error e => exact throw _
  | ok objects =>
    apply ofStore
    intro items hitems
    refine h (subset_append ..) (mem_append ..) rfl hs ?_
    rw [← hobjects objects rfl]
    exact hitems

/-- The slot of an object is occupied after its creation, and when its creation is refused because
there is something. -/
theorem create {a : α} {post : Except StoreError α → List Exchange → Prop}
    (hok : ok past (.store (.create (Resource.kind α) (Resource.encode a))))
    (h : ∀ {past' reply}, past ⊆ past' →
      ((∀ e, reply = .error e → e.isAlreadyExists) →
        ∃ e ∈ past', e.after.find? (Resource.slot a) ≠ none) → post reply past') :
    (Pass.lift (Pass.create a)).Heeds ok post past := by
  apply lift
  apply Program.Heeds.bind
  apply Program.Heeds.request hok
  intro s s' reply hs hanswered
  refine h (subset_append ..) fun hthere => ⟨_, mem_append .., ?_⟩
  rcases hanswered.store_cases with ⟨now, hserve⟩ | ⟨e, hrefusal, rfl, rfl⟩
  · replace hserve : s.create now (Resource.kind α) (Resource.encode a) = (reply, s') := hserve
    show s'.find? (Resource.slot a) ≠ none
    cases hfind : s.find? { kind := Resource.kind α, key := (Resource.encode a).key } with
    | none =>
      cases (Store.create_of_find?_none now hfind).symm.trans hserve
      exact (Store.find?_withNew ..).trans (if_pos rfl) ▸ Option.some_ne_none _
    | some old =>
      cases (Store.create_of_find?_some now hfind).symm.trans hserve
      exact hfind ▸ Option.some_ne_none old
  · have hnot := hthere e rfl
    rw [hrefusal.not_isAlreadyExists] at hnot
    cases hnot

/-- What a change goes on with after its writing: the answer may tell what has been stored, with the
place and the identity of what had been there. -/
theorem afterWrite [LawfulResource α] {change : Nat → α → α × Option β} {attempts left : Nat}
    {note : β} {changed : α} {s s' : Store} {reply : Except StoreError Object}
    {post : Option (α × Option β) → List Exchange → Prop}
    (hanswered : (Request.store (.update (Resource.kind α) (Resource.encode changed))).Answered s
      reply s')
    (hagain : (modifyWithin key change attempts left).Heeds ok post past)
    (hnone : post none past)
    (hwritten : ∀ {o : Object} {a : α}, s.find? (Resource.slot a) = some o →
      (Resource.metadata a).uid = o.metadata.uid → post (some (a, some note)) past) :
    Program.Heeds ok (fun result past => ∀ a, result = .ok a → post a past)
      (Pass.afterWrite key change attempts left note reply) past := by
  have hfailed : ∀ e, Program.Heeds ok (fun result past => ∀ a, result = .ok a → post a past)
      (Pass.afterWrite key change attempts left note (.error e)) past := by
    intro e
    simp only [Pass.afterWrite, decoded]
    split
    · exact hagain
    · split
      · exact pure hnone
      · exact throw _
  rcases hanswered.store_cases with ⟨now, hserve⟩ | ⟨e, -, rfl, rfl⟩
  · replace hserve : s.update now (Resource.kind α) (Resource.encode changed) = (reply, s') :=
      hserve
    cases hfind : s.find? { kind := Resource.kind α, key := (Resource.encode changed).key } with
    | none =>
      cases (Store.update_of_find?_none now hfind).symm.trans hserve
      exact hfailed _
    | some old =>
      by_cases hv : old.metadata.version = (Resource.encode changed).metadata.version
      · obtain ⟨after, hupdate, -⟩ := Store.update_of_version_eq now hfind hv
        cases hupdate.symm.trans hserve
        rw [afterWrite_revised]
        apply pure
        apply hwritten (o := old)
        · rw [Resource.slot, Resource.key, LawfulResource.metadata_setMetadata]
          exact hfind
        · rw [LawfulResource.metadata_setMetadata]
          rfl
      · cases (Store.update_of_version_ne now hfind hv).symm.trans hserve
        exact hfailed _
  · exact hfailed e

/-- A change of an object reads it and writes it back, perhaps more than once. -/
theorem modify [LawfulResource α] {attempts : Nat} {change : α → α × Option β}
    {post : Option (α × Option β) → List Exchange → Prop}
    (hread : ∀ {past'}, past ⊆ past' → ok past' (.store (.get (Resource.kind α) key)))
    (hwrite : ∀ {past'} {s : Store} {object : Object} {current changed : α} {note : β},
      past ⊆ past' → .read { kind := Resource.kind α, key } object s ∈ past' →
      Resource.decode object = .ok current → change current = (changed, some note) →
      ok past' (.store (.update (Resource.kind α) (Resource.encode changed))))
    (hnone : ∀ {past'}, past ⊆ past' → post none past')
    (hsame : ∀ {past'} {s : Store} {object : Object} {current same : α}, past ⊆ past' →
      .read { kind := Resource.kind α, key } object s ∈ past' → s.Sound →
      s.find? { kind := Resource.kind α, key } = some object →
      Resource.decode object = .ok current → change current = (same, none) →
      post (some (same, none)) past')
    (hwritten : ∀ {past'} {e : Exchange} {o : Object} {a : α} {note : β}, past ⊆ past' →
      e ∈ past' → e.before.find? (Resource.slot a) = some o →
      (Resource.metadata a).uid = o.metadata.uid → post (some (a, some note)) past') :
    (Pass.modify key attempts change).Heeds ok post past := by
  have hwithin : ∀ (left : Nat) {past' : List Exchange}, past ⊆ past' →
      (modifyWithin key (fun _ => change) (max attempts 1) left).Heeds ok post past' := by
    intro left
    induction left with
    | zero =>
      intro past' _
      exact throw _
    | succ left ih =>
      intro past' hsub
      show Program.Heeds ok _ (modifyWithin key (fun _ => change) (max attempts 1) (left + 1)).run
        past'
      rw [run_modifyWithin_succ]
      refine ⟨hread hsub, ?_⟩
      intro s s' reply hs hanswered
      obtain ⟨rfl, hfound, -⟩ := hanswered.get_cases
      have hsub₁ {e : Exchange} : past ⊆ past' ++ [e] :=
        List.Subset.trans hsub (subset_append past' e)
      simp only [afterRead]
      cases hf : (found? reply : Except Error (Option α)) with
      | error e => exact throw e
      | ok found =>
        cases found with
        | none => exact pure (hnone hsub₁)
        | some current =>
          obtain ⟨object, rfl, hdecode⟩ := found?_eq_some hf
          have hmem := mem_append past' (.read { kind := Resource.kind α, key } object s')
          cases hchange : change current with
          | mk changed note =>
            simp only [hchange]
            cases note with
            | none => exact pure (hsame hsub₁ hmem hs (hfound object rfl) hdecode hchange)
            | some note =>
              refine ⟨hwrite hsub₁ hmem hdecode hchange, ?_⟩
              intro s₂ s₃ reply hs₂ hanswered₂
              have hsub₂ {e e' : Exchange} : past ⊆ past' ++ [e] ++ [e'] :=
                List.Subset.trans hsub₁ (subset_append _ e')
              exact afterWrite hanswered₂ (ih hsub₂) (hnone hsub₂)
                fun hfind huid => hwritten hsub₂ (mem_append ..) hfind huid
  exact hwithin _ (List.Subset.refl _)

end resource
end Heeds
end Pass

/-! ## Genuine answers -/

/-- A request that has been refused has left the store as it was. -/
theorem Request.Answered.outcome {r : StoreRequest} {s s' : Store} {reply : r.Reply}
    (h : (Request.store r).Answered s reply s') (hs : s.Sound) : s.Outcome r s' := by
  rcases h.store_cases with ⟨now, hserve⟩ | ⟨e, -, -, rfl⟩
  · have heq : (s.serve now r).2 = s' := by rw [hserve]
    rw [← heq]
    exact Store.serve_outcome hs now r
  · exact .idle fun _ => rfl

/-- A request does with a store what requests do, or it does nothing. -/
theorem Request.Answered.reached {r : Request} {s s' : Store} {reply : r.Reply}
    (h : r.Answered s reply s') (hs : s.Reached) : s'.Reached := by
  cases r with
  | discover | correlate | publish | measure => exact (show _ = _ from h) ▸ hs
  | store r =>
    rcases h.store_cases with ⟨now, hserve⟩ | ⟨e, -, -, hsame⟩
    · have hafter := hs.serve now r
      rwa [hserve] at hafter
    · exact hsame ▸ hs

/-- An exchange took place with an earlier state of a store. -/
structure Exchange.Precedes (e : Exchange) (s : Store) : Prop where
  sound : e.before.Sound
  follows : e.before.Follows e.after
  later : e.after.Follows s
  answered : e.request.Answered e.before e.reply e.after

/-- What a program has been answered came from earlier states of a store. -/
def Genuine (past : List Exchange) (s : Store) : Prop := ∀ e ∈ past, e.Precedes s

section
variable {slot : Slot} {object : Object} {earlier s : Store}

theorem Exchange.Precedes.find? (h : (Exchange.read slot object earlier).Precedes s) :
    earlier.find? slot = some object := h.answered.get_cases.2.1 object rfl

/-- What was read is still stored if its version is. -/
theorem Exchange.Precedes.eq_of_read (h : (Exchange.read slot object earlier).Precedes s)
    {old : Object} (found : s.find? slot = some old)
    (hv : old.metadata.version = object.metadata.version) : old = object :=
  (h.follows.trans h.later).eq_of_version_eq h.sound h.find? found hv

/-- What is replaced by something with the key and the version of what was read is what was read. -/
theorem Exchange.Precedes.eq_of_write {kind : Kind} {k : Key} {written old : Object}
    (h : (Exchange.read { kind, key := k } object earlier).Precedes s)
    (hkey : written.key = object.key)
    (hversion : written.metadata.version = object.metadata.version)
    (hold : s.find? { kind, key := written.key } = some old)
    (hv : written.metadata.version = old.metadata.version) : old = object := by
  rw [hkey, h.sound.key_eq h.find?] at hold
  exact h.eq_of_read hold (hv.symm.trans hversion)

/-- An identity that was met before an exchange is where it was. -/
theorem Exchange.Precedes.slot_eq {e : Exchange} (h : e.Precedes s) {other : Slot} {old : Object}
    (hold : e.before.find? other = some old) (found : s.find? slot = some object)
    (huid : object.metadata.uid = old.metadata.uid) : slot = other :=
  (h.follows.trans h.later).find?_of_uid_eq h.sound hold found huid

end

/-! ## Worlds -/

variable {R : Repertoire.{u}} {rules : Rules R} {w w' : World R} {s : Store}

namespace Rules

/-- Where the tasks of a world come from after a move. -/
inductive Origin (w w' : World R) : Task R → Prop where
  | same {t : Task R} : t ∈ w.tasks → Origin w w' t
  | start (job : R.Job) : Origin w w' (.start job)
  | answer {t : Task R} {r : Request} {next : r.Reply → Program (R.Result t.job)}
    {reply : r.Reply} : t ∈ w.tasks → t.rest = .ask r next → r.Answered w.store reply w'.store →
    Origin w w' (t.answered r next reply w.store w'.store)
  | abandon {t : Task R} : t ∈ w.tasks → Origin w w' t.abandon

/-- What a move has done to the store. -/
inductive Cause (rules : Rules R) (w w' : World R) : Prop where
  | none : w'.store = w.store → Cause rules w w'
  | answer {t : Task R} {r : Request} {next : r.Reply → Program (R.Result t.job)}
    {reply : r.Reply} : t ∈ w.tasks → t.rest = .ask r next → r.Answered w.store reply w'.store →
    t.answered r next reply w.store w'.store ∈ w'.tasks → t.InProgress → Cause rules w w'
  | outside (now : Instant) {r : StoreRequest} : rules.outside r →
    w'.store = (w.store.serve now r).2 → Cause rules w w'

theorem Move.origin (h : rules.Move w w') : ∀ t ∈ w'.tasks, Origin w w' t := by
  intro t ht
  cases h with
  | start job hfree =>
    rcases List.mem_append.1 ht with ht | ht
    · exact .same ht
    · cases List.mem_singleton.1 ht
      exact .start job
  | answer htasks hkept hrest hanswered =>
    rcases List.mem_append.1 ht with ht | ht
    · exact .same (htasks ▸ List.mem_append_left _ ht)
    · rcases List.mem_cons.1 ht with rfl | ht
      · refine .answer ?_ hrest hanswered
        exact htasks ▸ List.mem_append_right _ List.mem_cons_self
      · exact .same (htasks ▸ List.mem_append_right _ (List.mem_cons_of_mem _ ht))
  | abandon htasks =>
    rcases List.mem_append.1 ht with ht | ht
    · exact .same (htasks ▸ List.mem_append_left _ ht)
    · rcases List.mem_cons.1 ht with rfl | ht
      · exact .abandon (htasks ▸ List.mem_append_right _ List.mem_cons_self)
      · exact .same (htasks ▸ List.mem_append_right _ (List.mem_cons_of_mem _ ht))
  | outside => exact .same ht

theorem Move.cause (h : rules.Move w w') : rules.Cause w w' := by
  cases h with
  | start | abandon => exact .none rfl
  | answer htasks hkept hrest hanswered =>
    refine .answer ?_ hrest hanswered (List.mem_append_right _ List.mem_cons_self)
      ⟨hkept, by rw [hrest]; rfl⟩
    exact htasks ▸ List.mem_append_right _ List.mem_cons_self
  | outside now r hr => exact .outside now hr rfl

/-- What a task has been answered is not forgotten. -/
theorem Move.exists_past (h : rules.Move w w') {t : Task R} (ht : t ∈ w.tasks) :
    ∃ t' ∈ w'.tasks, t'.job = t.job ∧ t.past <+: t'.past := by
  have hreplace : ∀ {front back : List (Task R)} {t₀ t₁ : Task R} {tasks : List (Task R)},
      w.tasks = front ++ t₀ :: back → front ++ t₁ :: back = tasks → t₁.job = t₀.job →
      t₀.past <+: t₁.past → ∃ t' ∈ tasks, t'.job = t.job ∧ t.past <+: t'.past := by
    intro front back t₀ t₁ tasks htasks heq hjob hpast
    subst heq
    rw [htasks] at ht
    rcases List.mem_append.1 ht with ht | ht
    · exact ⟨t, List.mem_append_left _ ht, rfl, List.prefix_rfl⟩
    · rcases List.mem_cons.1 ht with rfl | ht
      · exact ⟨t₁, List.mem_append_right _ List.mem_cons_self, hjob, hpast⟩
      · exact ⟨t, List.mem_append_right _ (List.mem_cons_of_mem _ ht), rfl, List.prefix_rfl⟩
  cases h with
  | start => exact ⟨t, List.mem_append_left _ ht, rfl, List.prefix_rfl⟩
  | answer htasks => exact hreplace htasks rfl rfl (List.prefix_append ..)
  | abandon htasks => exact hreplace htasks rfl rfl List.prefix_rfl
  | outside => exact ⟨t, ht, rfl, List.prefix_rfl⟩

/-- What holds of the pasts of tasks in their order held of what they were before a move. -/
theorem Move.pairwise_past (h : rules.Move w w') {P : List Exchange → List Exchange → Prop}
    (hP : ∀ {a a' b b'}, a <+: a' → b <+: b' → P a' b' → P a b)
    (hafter : w'.tasks.Pairwise fun t t' => P t.past t'.past) :
    w.tasks.Pairwise fun t t' => P t.past t'.past := by
  have hreplace : ∀ {front back : List (Task R)} {t₀ t₁ : Task R},
      (front ++ t₁ :: back).Pairwise (fun t t' => P t.past t'.past) → t₀.past <+: t₁.past →
      (front ++ t₀ :: back).Pairwise fun t t' => P t.past t'.past :=
    fun hafter hpast => pairwise_replace hafter (fun _ => hP List.prefix_rfl hpast)
      fun _ => hP hpast List.prefix_rfl
  cases h with
  | start => exact (List.pairwise_append.1 hafter).1
  | answer htasks => exact htasks ▸ hreplace hafter (List.prefix_append ..)
  | abandon htasks => exact htasks ▸ hreplace hafter List.prefix_rfl
  | outside => exact hafter

/-- An exchange of a task took place between two worlds, the second of which came right after the
first. Up to then the task had been answered the exchanges in front of it. -/
structure Took (rules : Rules R) (s : Store) (w : World R) (job : R.Job) (front : List Exchange)
    (e : Exchange) (w₀ w₁ : World R) : Prop where
  before : rules.Steps { store := s } w₀
  step : rules.Step w₀ w₁
  after : rules.Steps w₁ w
  store_before : w₀.store = e.before
  store_after : w₁.store = e.after
  answered : e.request.Answered e.before e.reply e.after
  asked : ∃ t₀ ∈ w₀.tasks, t₀.job = job ∧ t₀.past = front ∧ ∃ next, t₀.rest = .ask e.request next

theorem Steps.exists_exchange (h : rules.Steps { store := s } w) {t : Task R} (ht : t ∈ w.tasks)
    {front back : List Exchange} {e : Exchange} (hpast : t.past = front ++ e :: back) :
    ∃ w₀ w₁, rules.Took s w t.job front e w₀ w₁ := by
  induction h generalizing t back with
  | refl => cases ht
  | @tail w₀ w₁ hsteps hstep ih =>
    have hearlier : ∀ {t' : Task R} {back' : List Exchange}, t' ∈ w₀.tasks → t'.job = t.job →
        t'.past = front ++ e :: back' → ∃ v₀ v₁, rules.Took s w₁ t.job front e v₀ v₁ := by
      intro t' back' ht' hjob hpast'
      obtain ⟨v₀, v₁, htook⟩ := ih ht' hpast'
      exact ⟨v₀, v₁, { htook with after := htook.after.tail hstep, asked := hjob ▸ htook.asked }⟩
    cases hstep.move.origin t ht with
    | same ht' => exact hearlier ht' rfl hpast
    | start job => cases front <;> cases hpast
    | abandon ht' => exact hearlier ht' rfl hpast
    | @answer t' r next reply ht' hrest hanswered =>
      rcases List.eq_nil_or_concat back with rfl | ⟨back', last, rfl⟩
      · -- the exchange is the last one
        obtain ⟨hfront, hlast⟩ := List.append_inj' hpast rfl
        cases hlast
        exact ⟨w₀, w₁, hsteps, hstep, .refl, rfl, rfl, hanswered, t', ht', rfl, hfront, next, hrest⟩
      · rw [List.concat_eq_append, ← List.cons_append, ← List.append_assoc] at hpast
        exact hearlier ht' rfl (List.append_inj' hpast rfl).1

/-- The worlds right before and right after an exchange could be reached. -/
theorem Reachable.exists_exchange (hw : rules.Reachable w) {t : Task R} (ht : t ∈ w.tasks)
    {e : Exchange} (he : e ∈ t.past) :
    ∃ front w₀ w₁, front <+: t.past ∧ rules.Reachable w₀ ∧ rules.Reachable w₁ ∧
      rules.Took {} w t.job front e w₀ w₁ := by
  obtain ⟨front, back, hpast⟩ := List.append_of_mem he
  obtain ⟨w₀, w₁, htook⟩ := hw.steps.exists_exchange ht hpast
  exact ⟨front, w₀, w₁, ⟨_, hpast.symm⟩, ⟨hw.during, htook.before⟩,
    ⟨hw.during, htook.before.tail htook.step⟩, htook⟩

theorem Steps.sound (hs : s.Sound) (h : rules.Steps { store := s } w) : w.store.Sound := by
  induction h with
  | refl => exact hs
  | tail _ hstep ih => exact ih.edits hstep.move.edits

theorem Steps.reached (hs : s.Reached) (h : rules.Steps { store := s } w) : w.store.Reached := by
  induction h with
  | refl => exact hs
  | tail _ hstep ih =>
    cases hstep.move.cause with
    | none hsame => exact hsame ▸ ih
    | outside now hr hafter => exact hafter ▸ Store.Reached.serve ih now _
    | answer _ _ hanswered _ => exact hanswered.reached ih

/-- What a task has been answered came from earlier states of the store. -/
theorem Steps.genuine (hs : s.Sound) (h : rules.Steps { store := s } w) {t : Task R}
    (ht : t ∈ w.tasks) : Genuine t.past w.store := by
  intro e he
  obtain ⟨front, back, hpast⟩ := List.append_of_mem he
  obtain ⟨w₀, w₁, htook⟩ := h.exists_exchange ht hpast
  refine ⟨htook.store_before ▸ htook.before.sound hs, htook.answered.edits.follows, ?_,
    htook.answered⟩
  exact htook.store_after ▸ htook.after.follows

variable {ok : R.Job → List Exchange → Request → Prop}

/-- The tasks of a world heed what their programs heed. -/
theorem Steps.heeds (hprogram : ∀ job, (R.program job).Heeds (ok job) (fun _ _ => True) [])
    (hs : s.Sound) (h : rules.Steps { store := s } w) :
    ∀ t ∈ w.tasks, t.rest.Heeds (ok t.job) (fun _ _ => True) t.past := by
  induction h with
  | refl => exact fun t ht => absurd ht List.not_mem_nil
  | @tail w₀ w₁ hsteps hstep ih =>
    intro t ht
    cases hstep.move.origin t ht with
    | same ht' => exact ih t ht'
    | start job => exact hprogram job
    | @abandon t' ht' => exact ih t' ht'
    | @answer t' r next reply ht' hrest hanswered =>
      have hheeds := ih t' ht'
      rw [hrest] at hheeds
      exact hheeds.2 _ _ _ (Steps.sound hs hsteps) hanswered

/-- A request to the store that a task of a world may make next, or somebody outside. -/
inductive Requested (rules : Rules R) (ok : R.Job → List Exchange → Request → Prop) (w : World R) :
    StoreRequest → Prop where
  | own {t : Task R} {r : StoreRequest} : t ∈ w.tasks → Genuine t.past w.store →
    ok t.job t.past (.store r) → Requested rules ok w r
  | outside {r : StoreRequest} : rules.outside r → Requested rules ok w r

/-- The store is as it was after a move, or a request has been made of it. -/
theorem Steps.outcome (hprogram : ∀ job, (R.program job).Heeds (ok job) (fun _ _ => True) [])
    (hs : s.Sound) (h : rules.Steps { store := s } w) (hmove : rules.Move w w') :
    w'.store = w.store ∨ ∃ r, Requested rules ok w r ∧ w.store.Outcome r w'.store := by
  have hsound := Steps.sound hs h
  cases hmove.cause with
  | none hsame => exact .inl hsame
  | outside now hr hafter =>
    rw [hafter]
    exact .inr ⟨_, .outside hr, Store.serve_outcome hsound now _⟩
  | @answer t r next reply ht hrest hanswered hmem =>
    cases r with
    | discover | correlate | publish | measure => exact .inl hanswered
    | store r =>
      have hheeds := h.heeds hprogram hs t ht
      rw [hrest] at hheeds
      exact .inr ⟨r, .own ht (h.genuine hs ht) hheeds.1, hanswered.outcome hsound⟩

theorem Took.allowed (hprogram : ∀ job, (R.program job).Heeds (ok job) (fun _ _ => True) [])
    (hs : s.Sound) {job : R.Job} {front : List Exchange} {e : Exchange} {w₀ w₁ : World R}
    (h : rules.Took s w job front e w₀ w₁) : ok job front e.request := by
  obtain ⟨t₀, ht₀, rfl, rfl, next, hrest⟩ := h.asked
  have hheeds := h.before.heeds hprogram hs t₀ ht₀
  rw [hrest] at hheeds
  exact hheeds.1

end Rules

/-! ## Identities that have been met -/

/-- Some task has met an identity in a slot. -/
def World.Met (w : World R) (slot : Slot) (uid : Uid) : Prop :=
  ∃ t ∈ w.tasks, ∃ e ∈ t.past, ∃ o, e.before.find? slot = some o ∧ o.metadata.uid = some uid

section
variable {slot other : Slot} {uid : Uid}

theorem World.Met.move (h : w.Met slot uid) (hmove : rules.Move w w') : w'.Met slot uid := by
  obtain ⟨t, ht, e, he, hmet⟩ := h
  obtain ⟨t', ht', -, hpast⟩ := hmove.exists_past ht
  exact ⟨t', ht', e, hpast.subset he, hmet⟩

theorem World.Met.steps (h : w.Met slot uid) (hsteps : rules.Steps w w') : w'.Met slot uid := by
  induction hsteps with
  | refl => exact h
  | tail _ hstep ih => exact ih.move hstep.move

/-- An identity that has been met somewhere is not stored elsewhere. -/
theorem Rules.Steps.slot_eq (hs : s.Sound) (h : rules.Steps { store := s } w)
    (hmet : w.Met slot uid) {o : Object} (found : w.store.find? other = some o)
    (huid : o.metadata.uid = some uid) : other = slot := by
  obtain ⟨t, ht, e, he, old, hold, heq⟩ := hmet
  exact (h.genuine hs ht e he).slot_eq hold found (huid.trans heq.symm)

/-- An identity is met in one slot only. -/
theorem Rules.Steps.met_inj (hs : s.Sound) (h : rules.Steps { store := s } w)
    (hmet : w.Met slot uid) (hother : w.Met other uid) : slot = other := by
  induction h with
  | refl =>
    obtain ⟨t, ht, -⟩ := hmet
    cases ht
  | @tail w₀ w₁ hsteps hstep ih =>
    -- the last exchange was with the store as it was before
    have hcases : ∀ {slot}, w₁.Met slot uid → w₀.Met slot uid ∨
        ∃ o, w₀.store.find? slot = some o ∧ o.metadata.uid = some uid := by
      rintro slot ⟨t, ht, e, he, o, hfind, huid⟩
      cases hstep.move.origin t ht with
      | same ht' => exact .inl ⟨t, ht', e, he, o, hfind, huid⟩
      | start => cases he
      | @abandon t' ht' => exact .inl ⟨t', ht', e, he, o, hfind, huid⟩
      | @answer t' _ _ _ ht' =>
        rcases List.mem_append.1 he with he | he
        · exact .inl ⟨t', ht', e, he, o, hfind, huid⟩
        · cases List.mem_singleton.1 he
          exact .inr ⟨o, hfind, huid⟩
    rcases hcases hmet with hmet | ⟨o, found, huid⟩ <;>
      rcases hcases hother with hother | ⟨o', found', huid'⟩
    · exact ih hmet hother
    · exact (Rules.Steps.slot_eq hs hsteps hmet found' huid').symm
    · exact Rules.Steps.slot_eq hs hsteps hother found huid
    · exact (Rules.Steps.sound hs hsteps).uid_inj found found' (huid.trans huid'.symm)

end
end CampaignControl
