import CampaignControl.Proofs.Concurrency.Publications
import CampaignControl.Proofs.Store.Intact

/-!
# What programs ensure

What a program comes to on a store that others may change between its requests, whatever faults its
requests meet. `Others` says what they may do. `Program.Ensures` goes along with the program: every
request is one that `ok` allows after what the program has been answered, and in the end something
holds of the value, of all that has been answered and of the store. The rules for passes
(`Pass.Ensures`) tell exactly what each request adds to the past of the program and does to the
store; a pass that ends with an error has something else to ensure.

The tasks of a world ensure what their programs ensure beside any others (`Rules.Steps.ensures`), or
beside others who do whatever happens in the world (`Rules.Steps.ensures_beside`).
-/

namespace CampaignControl

universe u

/-! ## Pasts -/

namespace Exchange

/-- The creation of an object, which has been stored. -/
def creation (kind : Kind) (object stored : Object) (before after : Store) : Exchange where
  request := .store (.create kind object)
  reply := .ok stored
  before
  after

/-- Something that has been measured. -/
def measurement (m : Measurement) (s : Store) : Exchange where
  request := .measure m
  reply := ()
  before := s
  after := s

/-- A request to the store that has changed nothing. -/
structure IsQuiet (e : Exchange) : Prop where
  isIdle : e.IsIdle
  isStore : ∃ r, e.request = .store r

end Exchange

/-- One past goes on from another one, and nothing has been done. -/
def Quietly (past past' : List Exchange) : Prop :=
  ∃ new, past' = past ++ new ∧ ∀ e ∈ new, e.IsQuiet

namespace Quietly

variable {past past' : List Exchange} {e : Exchange}

theorem refl (past : List Exchange) : Quietly past past :=
  ⟨[], (List.append_nil past).symm, fun _ he => absurd he List.not_mem_nil⟩

theorem append (h : Quietly past past') (he : e.IsQuiet) : Quietly past (past' ++ [e]) := by
  obtain ⟨new, rfl, hnew⟩ := h
  refine ⟨new ++ [e], List.append_assoc .., fun x hx => ?_⟩
  rcases List.mem_append.1 hx with hx | hx
  · exact hnew x hx
  · cases List.mem_singleton.1 hx
    exact he

theorem single (he : e.IsQuiet) : Quietly past (past ++ [e]) := (Quietly.refl past).append he

theorem goesOn (h : Quietly past past') : past <+: past' := by
  obtain ⟨new, rfl, -⟩ := h
  exact List.prefix_append ..

theorem subset (h : Quietly past past') : past ⊆ past' := h.goesOn.subset

theorem published_eq (h : Quietly past past') : published past' = published past := by
  obtain ⟨new, rfl, hnew⟩ := h
  have hnone : published new = [] := by
    rw [published, List.filterMap_eq_nil_iff]
    intro e he
    obtain ⟨r, hr⟩ := (hnew e he).isStore
    rw [hr]
    rfl
  rw [published_append, hnone, List.append_nil]

theorem subset_published (h : Quietly past past') : published past ⊆ published past' := by
  rw [h.published_eq]
  exact List.Subset.refl _

end Quietly

/-! ## Others -/

/-- What is known of a store all the time, and what it may have become between two requests. -/
structure Others where
  inv : Store → Prop
  rely : Store → Store → Prop
  sound : ∀ {s}, inv s → s.Sound
  follows : ∀ {s s'}, rely s s' → s.Follows s'
  refl : ∀ s, rely s s
  trans : ∀ {s s' s''}, rely s s' → rely s' s'' → rely s s''

namespace Others

/-- Nobody else works on the store. -/
def none : Others where
  inv := Store.Sound
  rely s s' := s' = s
  sound := id
  follows h := h ▸ .refl _
  refl _ := rfl
  trans h h' := h'.trans h

/-- Others do what they like. -/
def any (inv : Store → Prop) (sound : ∀ {s}, inv s → s.Sound) : Others where
  inv
  rely := Store.Follows
  sound
  follows := id
  refl := .refl
  trans := .trans

end Others

/-! ## Programs -/

variable {others : Others} {ok : List Exchange → Request → Prop} {past : List Exchange} {s : Store}

namespace Program

variable {α β : Type}

/-- Every request of a program is one that `ok` allows, and `post` holds in the end. -/
def Ensures (others : Others) (ok : List Exchange → Request → Prop)
    (post : α → List Exchange → Store → Prop) : Program α → List Exchange → Store → Prop
  | .done a, past, s => post a past s
  | .ask r next, past, s => ∀ s₁, others.rely s s₁ → others.inv s₁ → ok past r ∧
    ∀ (reply : r.Reply) (s₂ : Store), others.inv s₂ → r.Answered s₁ reply s₂ →
      (next reply).Ensures others ok post
        (past ++ [{ request := r, reply, before := s₁, after := s₂ }]) s₂

namespace Ensures

theorem mono {post post' : α → List Exchange → Store → Prop} {p : Program α}
    (h : p.Ensures others ok post past s) (hpost : ∀ a past s, post a past s → post' a past s) :
    p.Ensures others ok post' past s := by
  induction p generalizing past s with
  | done a => exact hpost a past s h
  | ask r next ih =>
    intro s₁ hrely hinv
    obtain ⟨hok, hnext⟩ := h s₁ hrely hinv
    exact ⟨hok, fun reply s₂ hinv₂ hanswered => ih reply (hnext reply s₂ hinv₂ hanswered)⟩

theorem of_forall {p : Program α} (hok : ∀ past r, ok past r) :
    p.Ensures others ok (fun _ _ _ => True) past s := by
  induction p generalizing past s with
  | done a => trivial
  | ask r next ih => exact fun _ _ _ => ⟨hok past r, fun reply _ _ _ => ih reply⟩

theorem bind {post : β → List Exchange → Store → Prop} {p : Program α} {f : α → Program β}
    (h : p.Ensures others ok (fun a past s => (f a).Ensures others ok post past s) past s) :
    (p >>= f).Ensures others ok post past s := by
  show (p.bind f).Ensures others ok post past s
  induction p generalizing past s with
  | done a => exact h
  | ask r next ih =>
    intro s₁ hrely hinv
    obtain ⟨hok, hnext⟩ := h s₁ hrely hinv
    exact ⟨hok, fun reply s₂ hinv₂ hanswered => ih reply (hnext reply s₂ hinv₂ hanswered)⟩

theorem request {r : Request} {post : r.Reply → List Exchange → Store → Prop}
    (h : ∀ {s₁}, others.rely s s₁ → others.inv s₁ → ok past r ∧
      ∀ {reply : r.Reply} {s₂ : Store}, others.inv s₂ → r.Answered s₁ reply s₂ →
        post reply (past ++ [{ request := r, reply, before := s₁, after := s₂ }]) s₂) :
    (Program.request r).Ensures others ok post past s := by
  intro s₁ hrely hinv
  obtain ⟨hok, hpost⟩ := h hrely hinv
  exact ⟨hok, fun reply s₂ hinv₂ hanswered => hpost hinv₂ hanswered⟩

end Ensures
end Program

/-! ## Passes -/

namespace Pass

variable {α β γ δ : Type} {fail : List Exchange → Store → Prop}

/-- What holds at the end of a pass, with a result or with an error. -/
def Ends (fail : List Exchange → Store → Prop) (post : γ → List Exchange → Store → Prop) :
    Except Error γ → List Exchange → Store → Prop
  | .ok a => post a
  | .error _ => fail

/-- Every request of a pass is one that `ok` allows. In the end `post` holds if there is a result,
and `fail` if there is an error. -/
def Ensures (others : Others) (ok : List Exchange → Request → Prop)
    (fail : List Exchange → Store → Prop) (post : γ → List Exchange → Store → Prop) (p : Pass γ)
    (past : List Exchange) (s : Store) : Prop :=
  Program.Ensures others ok (Ends fail post) p.run past s

namespace Ensures

theorem imp {fail' : List Exchange → Store → Prop} {post post' : γ → List Exchange → Store → Prop}
    {p : Pass γ} (h : p.Ensures others ok fail post past s)
    (hfail : ∀ past s, fail past s → fail' past s)
    (hpost : ∀ a past s, post a past s → post' a past s) :
    p.Ensures others ok fail' post' past s := by
  apply Program.Ensures.mono h
  intro result past s hresult
  cases result with
  | ok a => exact hpost a past s hresult
  | error e => exact hfail past s hresult

theorem mono {post post' : γ → List Exchange → Store → Prop} {p : Pass γ}
    (h : p.Ensures others ok fail post past s)
    (hpost : ∀ a past s, post a past s → post' a past s) :
    p.Ensures others ok fail post' past s := h.imp (fun _ _ => id) hpost

theorem pure {post : γ → List Exchange → Store → Prop} {a : γ} (h : post a past s) :
    (Pure.pure a : Pass γ).Ensures others ok fail post past s := h

theorem throw {post : γ → List Exchange → Store → Prop} {e : Error} (h : fail past s) :
    (MonadExcept.throw e : Pass γ).Ensures others ok fail post past s := h

theorem bind {post : δ → List Exchange → Store → Prop} {p : Pass γ} {f : γ → Pass δ}
    (h : p.Ensures others ok fail
      (fun a past s => (f a).Ensures others ok fail post past s) past s) :
    (p >>= f).Ensures others ok fail post past s := by
  show Program.Ensures others ok _ (p >>= f).run past s
  rw [ExceptT.run_bind]
  apply Program.Ensures.bind
  apply Program.Ensures.mono h
  intro result past s hresult
  cases result with
  | ok a => exact hresult
  | error e => exact throw hresult

theorem lift {post : γ → List Exchange → Store → Prop} {p : Program γ}
    (h : p.Ensures others ok post past s) : (Pass.lift p).Ensures others ok fail post past s := by
  show Program.Ensures others ok _ (Pass.lift p).run past s
  rw [Pass.lift, ExceptT.run_lift, map_eq_pure_bind]
  apply Program.Ensures.bind
  exact h.mono fun a past s hpost => hpost

/-- A pass whose error is a value. -/
theorem outcome {post : Except Error γ → List Exchange → Store → Prop} {p : Pass γ}
    (h : Program.Ensures others ok post p.run past s) :
    (Pass.outcome p).Ensures others ok fail post past s := lift h

theorem ofStore {post : γ → List Exchange → Store → Prop} {reply : Except StoreError γ}
    (hfail : fail past s) (h : ∀ a, reply = .ok a → post a past s) :
    (Pass.ofStore reply).Ensures others ok fail post past s := by
  cases reply with
  | ok a => exact pure (h a rfl)
  | error e => exact throw hfail

theorem correlate {post : Uid → List Exchange → Store → Prop} (hok : ok past .correlate)
    (h : ∀ {s₁} uid, others.rely s s₁ → others.inv s₁ →
      post uid (past ++ [{ request := .correlate, reply := uid, before := s₁, after := s₁ }]) s₁) :
    Pass.correlate.Ensures others ok fail post past s := by
  apply lift
  apply Program.Ensures.request
  intro s₁ hrely hinv
  refine ⟨hok, fun {reply s₂} _ hanswered => ?_⟩
  cases (show s₂ = s₁ from hanswered)
  exact h reply hrely hinv

theorem measure {post : Unit → List Exchange → Store → Prop} {m : Measurement}
    (hok : ok past (.measure m))
    (h : ∀ {s₁}, others.rely s s₁ → others.inv s₁ →
      post () (past ++ [.measurement m s₁]) s₁) :
    (Pass.measure m).Ensures others ok fail post past s := by
  apply lift
  apply Program.Ensures.request
  intro s₁ hrely hinv
  refine ⟨hok, fun {reply s₂} _ hanswered => ?_⟩
  cases (show s₂ = s₁ from hanswered)
  exact h hrely hinv

/-- A pass that is counted when it fails. -/
theorem counted {post : γ → List Exchange → Store → Prop} {p : Pass γ}
    {post' : Except Error γ → List Exchange → Store → Prop}
    {rest : Except Error γ → Program (Except Error γ)} {m : Error → Measurement}
    (h : p.Ensures others ok fail post past s)
    (hdone : ∀ a, rest (.ok a) = .done (.ok a))
    (hcounts : ∀ e, rest (.error e) = do
      Program.request (.measure (m e))
      return .error e)
    (hok : ∀ e past, ok past (.measure (m e)))
    (hpost : ∀ a past s, post a past s → post' (.ok a) past s)
    (hfail : ∀ e past s s₁, others.rely s s₁ → fail past s →
      post' (.error e) (past ++ [.measurement (m e) s₁]) s₁) :
    (p.run >>= rest).Ensures others ok post' past s := by
  apply Program.Ensures.bind
  apply Program.Ensures.mono h
  intro result past s hend
  cases result with
  | ok a =>
    rw [hdone]
    exact hpost a past s hend
  | error e =>
    rw [hcounts]
    apply Program.Ensures.bind
    refine Program.Ensures.request (r := .measure (m e)) ?_
    intro s₁ hrely _
    refine ⟨hok e past, fun {_ s₂} _ hanswered => ?_⟩
    obtain rfl : s₂ = s₁ := hanswered
    exact hfail e past s s₂ hrely hend

theorem publish {post : Unit → List Exchange → Store → Prop} {e : Event}
    (hok : ok past (.publish e))
    (h : ∀ {s₁}, others.rely s s₁ → others.inv s₁ → post () (past ++ [.publication e s₁]) s₁) :
    (Pass.publish e).Ensures others ok fail post past s := by
  apply lift
  apply Program.Ensures.request
  intro s₁ hrely hinv
  refine ⟨hok, fun {reply s₂} _ hanswered => ?_⟩
  cases (show s₂ = s₁ from hanswered)
  exact h hrely hinv

theorem delete {kind : Kind} {key : Key}
    {post : Except StoreError Unit → List Exchange → Store → Prop}
    (hok : ok past (.store (.delete kind key .background)))
    (h : ∀ {s₁ s₂} {reply : Except StoreError Unit}, others.rely s s₁ → others.inv s₁ →
      others.inv s₂ → (Request.store (.delete kind key .background)).Answered s₁ reply s₂ →
      post reply (past ++ [{ request := .store (.delete kind key .background), reply
                             before := s₁, after := s₂ }]) s₂) :
    (Pass.lift (Pass.delete kind key)).Ensures others ok fail post past s := by
  apply lift
  apply Program.Ensures.request
  intro s₁ hrely hinv
  exact ⟨hok, fun hinv₂ hanswered => h hrely hinv hinv₂ hanswered⟩

section resource

variable [Resource α] {key : Key}

theorem find? {post : Option α → List Exchange → Store → Prop}
    (hok : ok past (.store (.get (Resource.kind α) key)))
    (hfail : ∀ {past' s₁}, others.rely s s₁ → Quietly past past' → fail past' s₁)
    (hfound : ∀ {s₁ : Store} {object : Object} {a : α}, others.rely s s₁ → others.inv s₁ →
      s₁.find? { kind := Resource.kind α, key } = some object → Resource.decode object = .ok a →
      post (some a) (past ++ [.read { kind := Resource.kind α, key } object s₁]) s₁)
    (hnone : ∀ {past' s₁}, others.rely s s₁ → others.inv s₁ → Quietly past past' →
      s₁.find? { kind := Resource.kind α, key } = none → post none past' s₁) :
    (Pass.find? key : Pass (Option α)).Ensures others ok fail post past s := by
  show Program.Ensures others ok _ (Pass.find? key : Pass (Option α)).run past s
  rw [run_find?]
  intro s₁ hrely hinv
  refine ⟨hok, fun reply s₂ _ hanswered => ?_⟩
  obtain ⟨rfl, hobject, hnot⟩ := hanswered.get_cases
  have hquiet : Quietly past (past ++ [{ request := .store (.get (Resource.kind α) key), reply
                                         before := s₂, after := s₂ }]) := .single ⟨rfl, _, rfl⟩
  show Ends fail post (found? reply) _ _
  cases hf : (found? reply : Except Error (Option α)) with
  | error e => exact hfail hrely hquiet
  | ok found =>
    cases found with
    | none =>
      obtain ⟨e, rfl, hgone⟩ := found?_eq_none hf
      exact hnone hrely hinv hquiet (hnot e rfl hgone)
    | some a =>
      obtain ⟨object, rfl, hdecode⟩ := found?_eq_some hf
      exact hfound hrely hinv (hobject object rfl) hdecode

theorem get {post : α → List Exchange → Store → Prop}
    (hok : ok past (.store (.get (Resource.kind α) key)))
    (hfail : ∀ {past' s₁}, others.rely s s₁ → Quietly past past' → fail past' s₁)
    (h : ∀ {s₁ : Store} {object : Object} {a : α}, others.rely s s₁ → others.inv s₁ →
      s₁.find? { kind := Resource.kind α, key } = some object → Resource.decode object = .ok a →
      post a (past ++ [.read { kind := Resource.kind α, key } object s₁]) s₁) :
    (Pass.get key : Pass α).Ensures others ok fail post past s := by
  apply bind
  apply lift
  apply Program.Ensures.request
  intro s₁ hrely hinv
  refine ⟨hok, fun {reply s₂} _ hanswered => ?_⟩
  obtain ⟨rfl, hobject, -⟩ := hanswered.get_cases
  have hquiet : Quietly past (past ++ [{ request := .store (.get (Resource.kind α) key), reply
                                         before := s₂, after := s₂ }]) := .single ⟨rfl, _, rfl⟩
  apply ofStore (hfail hrely hquiet)
  intro a hdecoded
  cases reply with
  | error e => cases hdecoded
  | ok object => exact h hrely hinv (hobject object rfl) hdecoded

theorem list {filter : Filter} {post : List α → List Exchange → Store → Prop}
    (hok : ok past (.store (.list (Resource.kind α) filter)))
    (hfail : ∀ {past' s₁}, others.rely s s₁ → Quietly past past' → fail past' s₁)
    (h : ∀ {past' s₁} {items : List α}, others.rely s s₁ → others.inv s₁ → Quietly past past' →
      (s₁.list (Resource.kind α) filter).mapM Resource.decode = .ok items →
      post items past' s₁) :
    (Pass.list filter : Pass (List α)).Ensures others ok fail post past s := by
  apply bind
  apply lift
  apply Program.Ensures.request
  intro s₁ hrely hinv
  refine ⟨hok, fun {reply s₂} _ hanswered => ?_⟩
  obtain ⟨rfl, hobjects⟩ := hanswered.list_cases
  have hquiet : Quietly past (past ++ [{ request := .store (.list (Resource.kind α) filter), reply
                                         before := s₂, after := s₂ }]) := .single ⟨rfl, _, rfl⟩
  cases reply with
  | error e => exact throw (hfail hrely hquiet)
  | ok objects =>
    apply ofStore (hfail hrely hquiet)
    intro items hitems
    refine h hrely hinv hquiet ?_
    rw [← hobjects objects rfl]
    exact hitems

theorem create [LawfulResource α] {a : α}
    {post : Except StoreError α → List Exchange → Store → Prop}
    (hok : ok past (.store (.create (Resource.kind α) (Resource.encode a))))
    (hcreated : ∀ {s₁ : Store} (now : Instant), others.rely s s₁ → others.inv s₁ →
      others.inv (s₁.withNew now (Resource.slot a) (Resource.encode a)) →
      s₁.find? (Resource.slot a) = none →
      post (.ok (Resource.setMetadata (s₁.newborn now (Resource.encode a)).metadata a))
        (past ++ [.creation (Resource.kind α) (Resource.encode a)
          (s₁.newborn now (Resource.encode a)) s₁
          (s₁.withNew now (Resource.slot a) (Resource.encode a))])
        (s₁.withNew now (Resource.slot a) (Resource.encode a)))
    (hrefused : ∀ {past' s₁} (e : StoreError), others.rely s s₁ → others.inv s₁ →
      Quietly past past' → (e.isAlreadyExists → s₁.find? (Resource.slot a) ≠ none) →
      post (.error e) past' s₁) :
    (Pass.lift (Pass.create a)).Ensures others ok fail post past s := by
  apply lift
  apply Program.Ensures.bind
  apply Program.Ensures.request
  intro s₁ hrely hinv
  refine ⟨hok, fun {reply s₂} hinv₂ hanswered => ?_⟩
  rcases hanswered.create_cases with ⟨now, hnone, rfl, rfl⟩ | ⟨e, rfl, rfl, hexists⟩
  · show post (decoded (.ok (s₁.newborn now (Resource.encode a)))) _ _
    rw [decoded_newborn]
    exact hcreated now hrely hinv hinv₂ hnone
  · exact hrefused e hrely hinv (.single ⟨rfl, _, rfl⟩) hexists

/-- A change of an object reads it and writes it back over what it has read, perhaps not in the
first attempt. -/
theorem modify [LawfulResource α] {attempts : Nat} {change : α → α × Option β}
    {post : Option (α × Option β) → List Exchange → Store → Prop}
    (hkeeps : KeepsPlace change)
    (hread : ∀ {past'}, Quietly past past' → ok past' (.store (.get (Resource.kind α) key)))
    (hwrite : ∀ {past' : List Exchange} {s₁ : Store} {object : Object} {current changed : α}
      {note : β}, Quietly past past' → others.inv s₁ →
      s₁.find? { kind := Resource.kind α, key } = some object →
      Resource.decode object = .ok current → change current = (changed, some note) →
      ok (past' ++ [.read { kind := Resource.kind α, key } object s₁])
        (.store (.update (Resource.kind α) (Resource.encode changed))))
    (hfail : ∀ {past' s₁}, others.rely s s₁ → Quietly past past' → fail past' s₁)
    (hnone : ∀ {past' s₁}, others.rely s s₁ → others.inv s₁ → Quietly past past' →
      s₁.find? { kind := Resource.kind α, key } = none → post none past' s₁)
    (hsame : ∀ {past' : List Exchange} {s₁ : Store} {object : Object} {current same : α},
      others.rely s s₁ → others.inv s₁ → Quietly past past' →
      s₁.find? { kind := Resource.kind α, key } = some object →
      Resource.decode object = .ok current → change current = (same, none) →
      post (some (same, none)) (past' ++ [.read { kind := Resource.kind α, key } object s₁]) s₁)
    (hwritten : ∀ {past' : List Exchange} {s₁ s₂ : Store} {object : Object} {current changed : α}
      {note : β}, others.rely s s₁ → others.inv s₁ → others.inv s₂ → Quietly past past' →
      s₁.find? { kind := Resource.kind α, key } = some object →
      Resource.decode object = .ok current → change current = (changed, some note) →
      (Request.store (.update (Resource.kind α) (Resource.encode changed))).Answered s₁
        (.ok (s₁.revised object (Resource.encode changed))) s₂ →
      (s₁.withRevised { kind := Resource.kind α, key } object (Resource.encode changed)).Deletions
        s₂ →
      ((Resource.metadata changed).finalizers ≠ [] →
        s₂ = s₁.withRevised { kind := Resource.kind α, key } object (Resource.encode changed)) →
      post (some (Resource.setMetadata (s₁.revised object (Resource.encode changed)).metadata
          changed, some note))
        (past' ++ [.write (Resource.kind α) (Resource.encode changed)
          (s₁.revised object (Resource.encode changed)) s₁ s₂]) s₂) :
    (Pass.modify key attempts change).Ensures others ok fail post past s := by
  have hwithin : ∀ (left : Nat) {past' : List Exchange} {s' : Store}, others.rely s s' →
      Quietly past past' →
      (modifyWithin key (fun _ => change) (max attempts 1) left).Ensures others ok fail post past'
        s' := by
    intro left
    induction left with
    | zero =>
      intro past' s' hrely hquiet
      exact throw (hfail hrely hquiet)
    | succ left ih =>
      intro past' s' hrely hquiet
      show Program.Ensures others ok _
        (modifyWithin key (fun _ => change) (max attempts 1) (left + 1)).run past' s'
      rw [run_modifyWithin_succ]
      intro s₁ hlater hinv
      replace hrely := others.trans hrely hlater
      refine ⟨hread hquiet, fun reply s₂ _ hanswered => ?_⟩
      obtain ⟨rfl, hobject, hnot⟩ := hanswered.get_cases
      have hquiet₁ := hquiet.append (e := { request := .store (.get (Resource.kind α) key), reply
                                            before := s₂, after := s₂ }) ⟨rfl, _, rfl⟩
      simp only [afterRead]
      cases hf : (found? reply : Except Error (Option α)) with
      | error e => exact throw (hfail hrely hquiet₁)
      | ok found =>
        cases found with
        | none =>
          obtain ⟨e, rfl, hgone⟩ := found?_eq_none hf
          exact hnone hrely hinv hquiet₁ (hnot e rfl hgone)
        | some current =>
          obtain ⟨object, rfl, hdecode⟩ := found?_eq_some hf
          have hfind := hobject object rfl
          cases hchange : change current with
          | mk changed note =>
            simp only [hchange]
            cases note with
            | none => exact hsame hrely hinv hquiet hfind hdecode hchange
            | some note =>
              obtain ⟨hkey, hversion⟩ := hkeeps hchange
              rw [Resource.metadata_of_decode hdecode] at hkey hversion
              intro s₃ hlater₃ hinv₃
              replace hrely := others.trans hrely hlater₃
              refine ⟨hwrite hquiet hinv hfind hdecode hchange, fun reply s₄ hinv₄ hanswered => ?_⟩
              rcases @Request.Answered.update_cases _ _ _ { kind := Resource.kind α, key } _ _ _
                  hanswered (others.sound hinv) (others.follows hlater₃) hfind hkey hversion with
                ⟨hnow, -, rfl, hdel, hkept⟩ | ⟨e, rfl, rfl, hgone⟩
              · rw [afterWrite_revised]
                exact hwritten hrely hinv₃ hinv₄ hquiet₁ hnow hdecode hchange hanswered hdel hkept
              · have hquiet₂ := hquiet₁.append
                  (e := { request := .store (.update (Resource.kind α) (Resource.encode changed))
                          reply := .error e, before := s₄, after := s₄ }) ⟨rfl, _, rfl⟩
                simp only [afterWrite, decoded]
                split
                · exact ih hrely hquiet₂
                · split
                  · next hnotFound => exact hnone hrely hinv₃ hquiet₂ (hgone hnotFound)
                  · exact throw (hfail hrely hquiet₂)
  exact hwithin _ (others.refl s) (.refl past)

end resource
end Ensures
end Pass

/-! ## In a world -/

namespace Rules

variable {R : Repertoire.{u}} {rules : Rules R} {w : World R} {inv : Store → Prop}
  {hsound : ∀ {s}, inv s → s.Sound} {ok : R.Job → List Exchange → Request → Prop}
  {post : (job : R.Job) → R.Result job → List Exchange → Store → Prop}

/-- The tasks of a world ensure what their programs ensure beside others who may do whatever happens
in a step. -/
theorem Steps.ensures_beside
    (hprogram : ∀ job s, others.inv s →
      (R.program job).Ensures others (ok job) (post job) [] s)
    (hinv : ∀ {w}, rules.Steps { store := s } w → others.inv w.store)
    (hrely : ∀ {w w'}, rules.Steps { store := s } w → rules.Step w w' →
      others.rely w.store w'.store)
    (h : rules.Steps { store := s } w) : ∀ t ∈ w.tasks, ∃ s₀, others.rely s₀ w.store ∧
      t.rest.Ensures others (ok t.job) (post t.job) t.past s₀ := by
  induction h with
  | refl => exact fun t ht => absurd ht List.not_mem_nil
  | @tail w₀ w₁ hsteps hstep ih =>
    intro t ht
    cases hstep.move.origin t ht with
    | same ht' | abandon ht' =>
      obtain ⟨s₀, hlater, hensures⟩ := ih _ ht'
      exact ⟨s₀, others.trans hlater (hrely hsteps hstep), hensures⟩
    | start job => exact ⟨w₁.store, others.refl _, hprogram job _ (hinv (hsteps.tail hstep))⟩
    | @answer t' r next reply ht' hrest hanswered =>
      obtain ⟨s₀, hlater, hensures⟩ := ih t' ht'
      rw [hrest] at hensures
      obtain ⟨-, hnext⟩ := hensures _ hlater (hinv hsteps)
      exact ⟨w₁.store, others.refl _, hnext reply _ (hinv (hsteps.tail hstep)) hanswered⟩

/-- The tasks of a world ensure what their programs ensure beside any others. -/
theorem Steps.ensures
    (hprogram : ∀ job s, inv s → (R.program job).Ensures (.any inv hsound) (ok job) (post job) [] s)
    (hinv : ∀ {w}, rules.Steps { store := s } w → inv w.store)
    (h : rules.Steps { store := s } w) : ∀ t ∈ w.tasks, ∃ s₀, s₀.Follows w.store ∧
      t.rest.Ensures (.any inv hsound) (ok t.job) (post t.job) t.past s₀ := by
  have hrely : ∀ {w w'}, rules.Steps { store := s } w → rules.Step w w' →
      (Others.any inv hsound).rely w.store w'.store := fun _ hstep => hstep.move.edits.follows
  have hbeside := h.ensures_beside hprogram hinv hrely
  exact hbeside

end Rules
end CampaignControl
