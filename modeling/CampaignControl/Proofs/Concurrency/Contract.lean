import CampaignControl.Proofs.Concurrency.Requests

/-!
# Contracts

A program that works on a store beside others keeps a contract: from any store that the others
may have left, each of its requests leaves the store as the others may rely on
(`Program.Keeps`). What the store is like all the time is `I`, under a condition `D` that is
given; `Contract.rely` says what the others do between two requests and `Contract.guar` what a
request of the program does. Where the contracts of all jobs fit together, what they promise
holds in every world (`Rules.Upheld.of_contracts`).

The rules for passes (`Pass.Keeps`) take one request at a time, and a change of an object
(`Pass.Keeps.modify`) as if it were one request: what it writes back is made of what is there.
-/

namespace CampaignControl

universe u

/-- What a program may take for granted, and what it has to do for that. -/
structure Contract (D I : Store → Prop) where
  /-- What others do to the store. -/
  rely : Store → Store → Prop
  /-- What a request of the program does to the store. -/
  guar : Store → Store → Prop
  rely_refl : ∀ s, rely s s
  rely_trans : ∀ {s s' s''}, rely s s' → rely s' s'' → rely s s''
  guar_refl : ∀ s, guar s s
  guar_trans : ∀ {s s' s''}, s.Sound → s.Follows s' → s'.Follows s'' → guar s s' → guar s' s'' →
    guar s s''
  /-- Whatever is deleted, the contract is kept. -/
  deletions : ∀ {s s' : Store}, s.Sound → I s → s.Deletions s' → I s' ∧ guar s s'

variable {D I : Store → Prop} {c : Contract D I} {s s' s'' : Store}

namespace Contract

/-- What the store may have become while others worked on it. -/
structure Later (c : Contract D I) (s s' : Store) : Prop where
  follows : s.Follows s'
  sound : s'.Sound
  during : D s'
  inv : I s'
  rely : c.rely s s'

theorem Later.trans (h : c.Later s s') (h' : c.Later s' s'') : c.Later s s'' where
  follows := h.follows.trans h'.follows
  sound := h'.sound
  during := h'.during
  inv := h'.inv
  rely := c.rely_trans h.rely h'.rely

end Contract

/-! ## Programs -/

namespace Program

variable {α β : Type}

/-- A program keeps a contract from a store on, and `post` holds of its value and of the store
after its last request. -/
def Keeps (c : Contract D I) (post : α → Store → Prop) : Program α → Store → Prop
  | .done a, s => post a s
  | .ask r next, s => ∀ (s₁ s₂ : Store) (reply : r.Reply), c.Later s s₁ →
    r.Answered s₁ reply s₂ → I s₂ ∧ c.guar s₁ s₂ ∧ (next reply).Keeps c post s₂

namespace Keeps

theorem mono {post post' : α → Store → Prop} {p : Program α} (h : p.Keeps c post s)
    (hpost : ∀ a s, post a s → post' a s) : p.Keeps c post' s := by
  induction p generalizing s with
  | done a => exact hpost a s h
  | ask r next ih =>
    intro s₁ s₂ reply hlater hanswered
    obtain ⟨hinv, hguar, hnext⟩ := h s₁ s₂ reply hlater hanswered
    exact ⟨hinv, hguar, ih reply hnext⟩

theorem bind {post : β → Store → Prop} {p : Program α} {f : α → Program β}
    (h : p.Keeps c (fun a s => (f a).Keeps c post s) s) : (p >>= f).Keeps c post s := by
  show (p.bind f).Keeps c post s
  induction p generalizing s with
  | done a => exact h
  | ask r next ih =>
    intro s₁ s₂ reply hlater hanswered
    obtain ⟨hinv, hguar, hnext⟩ := h s₁ s₂ reply hlater hanswered
    exact ⟨hinv, hguar, ih reply hnext⟩

/-- A request to something else than the store. -/
theorem request {r : Request} {post : r.Reply → Store → Prop}
    (hr : ∀ {s reply s'}, r.Answered s reply s' → s' = s)
    (h : ∀ {s₁ : Store} (reply : r.Reply), c.Later s s₁ → post reply s₁) :
    (Program.request r).Keeps c post s := by
  intro s₁ s₂ reply hlater hanswered
  cases hr hanswered
  exact ⟨hlater.inv, c.guar_refl s₁, h reply hlater⟩

end Keeps
end Program

/-! ## Passes -/

namespace Pass

variable {α β γ : Type}

/-- A pass keeps a contract from a store on, and `post` holds of its result, if there is one, and
of the store after its last request. -/
def Keeps (c : Contract D I) (post : γ → Store → Prop) (p : Pass γ) (s : Store) : Prop :=
  Program.Keeps c (fun result s => ∀ a, result = .ok a → post a s) p.run s

namespace Keeps

theorem mono {post post' : γ → Store → Prop} {p : Pass γ} (h : p.Keeps c post s)
    (hpost : ∀ a s, post a s → post' a s) : p.Keeps c post' s :=
  Program.Keeps.mono h fun _ s h a ha => hpost a s (h a ha)

theorem pure {post : γ → Store → Prop} {a : γ} (h : post a s) :
    (Pure.pure a : Pass γ).Keeps c post s := by
  intro a' ha
  cases ha
  exact h

theorem throw {post : γ → Store → Prop} (e : Error) :
    (MonadExcept.throw e : Pass γ).Keeps c post s := by
  intro a ha
  cases ha

theorem bind {δ : Type} {post : δ → Store → Prop} {p : Pass γ} {f : γ → Pass δ}
    (h : p.Keeps c (fun a s => (f a).Keeps c post s) s) : (p >>= f).Keeps c post s := by
  show Program.Keeps c _ (p >>= f).run s
  rw [ExceptT.run_bind]
  refine Program.Keeps.bind (Program.Keeps.mono h fun result s hresult => ?_)
  cases result with
  | ok a => exact hresult a rfl
  | error e => exact throw e

theorem lift {post : γ → Store → Prop} {p : Program γ} (h : p.Keeps c post s) :
    (Pass.lift p).Keeps c post s := by
  show Program.Keeps c _ (Pass.lift p).run s
  rw [Pass.lift, ExceptT.run_lift, map_eq_pure_bind]
  refine Program.Keeps.bind (h.mono fun a s hpost a' ha => ?_)
  cases ha
  exact hpost

theorem outcome {post : Except Error γ → Store → Prop} {p : Pass γ}
    (h : Program.Keeps c post p.run s) : (Pass.outcome p).Keeps c post s := lift h

theorem ofStore {post : γ → Store → Prop} {reply : Except StoreError γ}
    (h : ∀ a, reply = .ok a → post a s) : (Pass.ofStore reply).Keeps c post s := by
  cases reply with
  | ok a => exact pure (h a rfl)
  | error e => exact throw _

theorem correlate {post : Uid → Store → Prop}
    (h : ∀ {s₁ : Store} (uid : Uid), c.Later s s₁ → post uid s₁) :
    Pass.correlate.Keeps c post s := lift (Program.Keeps.request id h)

theorem measure {post : Unit → Store → Prop} (m : Measurement)
    (h : ∀ {s₁ : Store}, c.Later s s₁ → post () s₁) : (Pass.measure m).Keeps c post s :=
  lift (Program.Keeps.request id fun _ => h)

theorem publish {post : Unit → Store → Prop} (e : Event)
    (h : ∀ {s₁ : Store}, c.Later s s₁ → post () s₁) : (Pass.publish e).Keeps c post s :=
  lift (Program.Keeps.request id fun _ => h)

section resource

variable [Resource α] {key : Key}

theorem find? {post : Option α → Store → Prop}
    (hfound : ∀ {s₁ : Store} {object : Object} {a : α}, c.Later s s₁ →
      s₁.find? { kind := Resource.kind α, key } = some object → Resource.decode object = .ok a →
      post (some a) s₁)
    (hnone : ∀ {s₁ : Store}, c.Later s s₁ →
      s₁.find? { kind := Resource.kind α, key } = none → post none s₁) :
    (Pass.find? key : Pass (Option α)).Keeps c post s := by
  show Program.Keeps c _ (Pass.find? key : Pass (Option α)).run s
  rw [run_find?]
  intro s₁ s₂ reply hlater hanswered
  obtain ⟨rfl, hok, herror⟩ := hanswered.get_cases
  refine ⟨hlater.inv, c.guar_refl _, fun found hfound' => ?_⟩
  cases found with
  | none =>
    obtain ⟨e, rfl, hnot⟩ := found?_eq_none hfound'
    exact hnone hlater (herror e rfl hnot)
  | some a =>
    obtain ⟨object, rfl, hdecode⟩ := found?_eq_some hfound'
    exact hfound hlater (hok object rfl) hdecode

theorem get {post : α → Store → Prop}
    (h : ∀ {s₁ : Store} {object : Object} {a : α}, c.Later s s₁ →
      s₁.find? { kind := Resource.kind α, key } = some object → Resource.decode object = .ok a →
      post a s₁) :
    (Pass.get key : Pass α).Keeps c post s := by
  refine bind (lift (p := .request (.store (.get (Resource.kind α) key))) ?_)
  intro s₁ s₂ reply hlater hanswered
  obtain ⟨rfl, hok, -⟩ := hanswered.get_cases
  refine ⟨hlater.inv, c.guar_refl _, ofStore fun a ha => ?_⟩
  cases reply with
  | error e => cases ha
  | ok object => exact h hlater (hok object rfl) ha

theorem list {filter : Filter} {post : List α → Store → Prop}
    (h : ∀ {s₁ : Store} {items : List α}, c.Later s s₁ →
      (s₁.list (Resource.kind α) filter).mapM Resource.decode = .ok items → post items s₁) :
    (Pass.list filter : Pass (List α)).Keeps c post s := by
  refine bind (lift (p := .request (.store (.list (Resource.kind α) filter))) ?_)
  intro s₁ s₂ reply hlater hanswered
  obtain ⟨rfl, hok⟩ := hanswered.list_cases
  refine ⟨hlater.inv, c.guar_refl _, ?_⟩
  cases reply with
  | error e => exact throw (c := c) _
  | ok objects =>
    refine ofStore fun items hitems => h hlater ?_
    rw [← hok objects rfl]
    exact hitems

theorem create [LawfulResource α] {a : α} {post : Except StoreError α → Store → Prop}
    (hcreated : ∀ {s₁ : Store} (now : Instant), c.Later s s₁ →
      s₁.find? (Resource.slot a) = none →
      I (s₁.withNew now (Resource.slot a) (Resource.encode a)) ∧
        c.guar s₁ (s₁.withNew now (Resource.slot a) (Resource.encode a)) ∧
        post (.ok (Resource.setMetadata (s₁.newborn now (Resource.encode a)).metadata a))
          (s₁.withNew now (Resource.slot a) (Resource.encode a)))
    (hfailed : ∀ {s₁ : Store} (e : StoreError), c.Later s s₁ → post (.error e) s₁) :
    (Pass.lift (Pass.create a)).Keeps c post s := by
  refine lift (Program.Keeps.bind ?_)
  intro s₁ s₂ reply hlater hanswered
  rcases hanswered.create_cases with ⟨now, hnone, rfl, rfl⟩ | ⟨e, rfl, rfl, -⟩
  · obtain ⟨hinv, hguar, hpost⟩ := hcreated now hlater hnone
    refine ⟨hinv, hguar, ?_⟩
    show post (decoded (.ok (s₁.newborn now (Resource.encode a)))) _
    rw [decoded_newborn]
    exact hpost
  · exact ⟨hlater.inv, c.guar_refl _, hfailed e hlater⟩

omit [Resource α] in
theorem delete {kind : Kind} {post : Except StoreError Unit → Store → Prop}
    (h : ∀ {s₁ s₂ : Store} {reply : Except StoreError Unit}, c.Later s s₁ → s₁.Deletions s₂ →
      ((∀ e, reply = .error e → e.isNotFound) →
        (∀ object, s₁.find? { kind, key } = some object → object.metadata.finalizers = []) →
        s₂.find? { kind, key } = none) → post reply s₂) :
    (Pass.lift (Pass.delete kind key)).Keeps c post s := by
  refine lift (p := .request (.store (.delete kind key .background))) ?_
  intro s₁ s₂ reply hlater hanswered
  obtain ⟨hdel, hgone⟩ := hanswered.delete_cases
  obtain ⟨hinv, hguar⟩ := c.deletions hlater.sound hlater.inv hdel
  exact ⟨hinv, hguar, h hlater hdel hgone⟩

/-- A change of an object, as one request. What is written back is made of what is there. If the
change takes the last finalizer from an object that is to be deleted, deletions follow. -/
theorem modify [LawfulResource α] {attempts : Nat} {change : α → α × Option β}
    {post : Option (α × Option β) → Store → Prop} (hkeeps : KeepsPlace change)
    (hnone : ∀ {s₁ : Store}, c.Later s s₁ →
      s₁.find? { kind := Resource.kind α, key } = none → post none s₁)
    (hsame : ∀ {s₁ : Store} {object : Object} {current same : α}, c.Later s s₁ →
      s₁.find? { kind := Resource.kind α, key } = some object →
      Resource.decode object = .ok current → change current = (same, none) →
      post (some (same, none)) s₁)
    (hwrite : ∀ {s₁ : Store} {object : Object} {current changed : α} {note : β}, c.Later s s₁ →
      s₁.find? { kind := Resource.kind α, key } = some object →
      Resource.decode object = .ok current → change current = (changed, some note) →
      I (s₁.withRevised { kind := Resource.kind α, key } object (Resource.encode changed)) ∧
      c.guar s₁
        (s₁.withRevised { kind := Resource.kind α, key } object (Resource.encode changed)) ∧
      ∀ {s₂ : Store},
        (s₁.withRevised { kind := Resource.kind α, key } object
          (Resource.encode changed)).Deletions s₂ →
        ((Resource.metadata changed).finalizers ≠ [] →
          s₂ = s₁.withRevised { kind := Resource.kind α, key } object
            (Resource.encode changed)) →
        post (some (Resource.setMetadata (s₁.revised object (Resource.encode changed)).metadata
          changed, some note)) s₂) :
    (Pass.modify key attempts change).Keeps c post s := by
  have hwithin : ∀ (left : Nat) (t : Store), (∀ {s₁}, c.Later t s₁ → c.Later s s₁) →
      (modifyWithin key (fun _ => change) (max attempts 1) left).Keeps c post t := by
    intro left
    induction left with
    | zero => exact fun t _ => throw _
    | succ left ih =>
      intro t hlater_of
      show Program.Keeps c _ (modifyWithin key (fun _ => change) (max attempts 1) (left + 1)).run t
      rw [run_modifyWithin_succ]
      intro s₁ s₂ reply hlater hanswered
      obtain ⟨rfl, hok, herror⟩ := hanswered.get_cases
      have hlater₁ := hlater_of hlater
      refine ⟨hlater.inv, c.guar_refl _, ?_⟩
      simp only [afterRead]
      cases hfound : (found? reply : Except Error (Option α)) with
      | error e => exact throw e
      | ok found =>
        cases found with
        | none =>
          obtain ⟨e, rfl, hnot⟩ := found?_eq_none hfound
          exact pure (hnone hlater₁ (herror e rfl hnot))
        | some current =>
          obtain ⟨object, rfl, hdecode⟩ := found?_eq_some hfound
          have hfind := hok object rfl
          cases hchange : change current with
          | mk changed note =>
            simp only [hchange]
            cases note with
            | none => exact pure (hsame hlater₁ hfind hdecode hchange)
            | some note =>
              intro s₃ s₄ reply hlater₃ hanswered
              have hlater₃' := hlater₁.trans hlater₃
              obtain ⟨hkey, hversion⟩ := hkeeps hchange
              rw [Resource.metadata_of_decode hdecode] at hkey hversion
              replace hkey : (Resource.encode changed).key = object.key := hkey
              rcases hanswered.update_cases hlater.sound hlater₃.follows hfind hkey hversion with
                ⟨hnow, -, rfl, hdel, hkept⟩ | ⟨e, rfl, rfl, hnot⟩
              · obtain ⟨hinv, hguar, hpost⟩ := hwrite hlater₃' hnow hdecode hchange
                have hkey := hkey.trans (hlater₃.sound.key_eq hnow)
                have hmid := hlater₃.sound.withRevised hnow hkey
                have hfollows := (Store.Edit.revise _ hnow hkey).follows
                obtain ⟨hinv', hguar'⟩ := c.deletions hmid hinv hdel
                have hguar := c.guar_trans hlater₃.sound hfollows hdel.edits.follows hguar hguar'
                refine ⟨hinv', hguar, ?_⟩
                rw [afterWrite_revised]
                exact pure (hpost hdel hkept)
              · refine ⟨hlater₃.inv, c.guar_refl _, ?_⟩
                simp only [afterWrite, decoded]
                split
                · exact ih _ fun h => hlater₃'.trans h
                · split
                  · next hnotFound => exact pure (hnone hlater₃' (hnot hnotFound))
                  · exact throw _
  exact hwithin _ s id

end resource
end Keeps
end Pass

/-! ## Contracts that fit together -/

variable {R : Repertoire.{u}}

/-- A task in progress keeps its contract from what the store was like at some time. -/
def Task.Keeps (contract : R.Job → Contract D I) (t : Task R) (s : Store) : Prop :=
  t.InProgress → ∃ s₀, (contract t.job).Later s₀ s ∧
    t.rest.Keeps (contract t.job) (fun _ _ => True) s₀

/-- If every job keeps its contract, and what one job does is what the jobs that may be in progress
beside it rely on, then the contracts are upheld. -/
theorem Rules.Upheld.of_contracts (rules : Rules R)
    (contract : R.Job → Contract rules.during I) (hempty : I {})
    (hkeeps : ∀ job s, s.Sound → rules.during s → I s →
      (R.program job).Keeps (contract job) (fun _ _ => True) s)
    (hbeside : ∀ {job job' s s'}, ¬ rules.excludes job job' ∨ ¬ rules.excludes job' job →
      (contract job).guar s s' → (contract job').rely s s')
    (houtside : ∀ {now r s}, rules.outside r → s.Sound → rules.during s → I s →
      I (s.serve now r).2 ∧ ∀ job, (contract job).rely s (s.serve now r).2) :
    rules.Upheld I (fun job => (contract job).guar) (Task.Keeps contract) where
  empty := hempty
  start {job s} hinv hs hduring _ :=
    ⟨s, ⟨.refl s, hs, hduring, hinv, (contract job).rely_refl s⟩, hkeeps job s hs hduring hinv⟩
  answer {t r next reply s s'} hinv hs hduring hprogress hkept hrest hanswered hduring' := by
    obtain ⟨s₀, hlater, hrest'⟩ := hprogress ⟨hkept, by rw [hrest]; rfl⟩
    rw [hrest] at hrest'
    obtain ⟨hinv', hguar, hnext⟩ := hrest' s s' reply hlater hanswered
    refine ⟨hinv', hguar, fun _ => ⟨s', ⟨.refl s', ?_, hduring', hinv', ?_⟩, hnext⟩⟩
    · exact hs.edits hanswered.edits
    · exact (contract t.job).rely_refl s'
  beside hfollows hs' hduring' hinv' hprogress hguar hexcludes hstill := by
    obtain ⟨s₀, hlater, hrest⟩ := hprogress hstill
    exact ⟨s₀, hlater.trans ⟨hfollows, hs', hduring', hinv', hbeside (hexcludes hstill) hguar⟩,
      hrest⟩
  abandon _ hstill := by cases hstill.1
  outside {now r s} hr hinv hs hduring hduring' := by
    obtain ⟨hinv', hrely⟩ := houtside hr hs hduring hinv
    refine ⟨hinv', fun {t} hprogress hstill => ?_⟩
    obtain ⟨s₀, hlater, hrest⟩ := hprogress hstill
    exact ⟨s₀, hlater.trans
      ⟨Store.serve_follows now r s, hs.serve now r, hduring', hinv', hrely t.job⟩, hrest⟩

end CampaignControl
