import CampaignControl.Proofs.Concurrency.Creations
import CampaignControl.Proofs.Fleet.Notices
import CampaignControl.Proofs.Fleet.Rounds
import CampaignControl.Proofs.Naming

/-!
# What an idempotency key tells

The key by which an event is known is made of the text of its entity and of its occurrence. Since no
occurrence is the end of another one (`Event.Payload.eq_of_suffix`), two events with one key are of
the same kind, with the same phases, and their entities have the same text (`Event.of_key_eq`).
About one entity they say the same but for how many repositories a batch had and why a campaign
was rejected, and about one incarnation of a work unit they say the same altogether
(`Fleet.key_tells`). A key does not tell incarnations apart (`Fleet.keys_repeat`).
-/

namespace CampaignControl

/-! ## Texts -/

/-- A key is read from its text, unless there is a slash in its namespace. -/
theorem Key.ofText?_text {key : Key} (h : '/' ∉ key.space.toList) :
    Key.ofText? key.text = some key := by
  have hchars : key.text.toList = key.space.toList ++ '/' :: key.name.toList := by
    simp [Key.text]
  have hspace : key.text.toList.takeWhile (· ≠ '/') = key.space.toList := by
    rw [hchars, List.takeWhile_append_of_pos fun c hc => by
      simpa using fun heq : c = '/' => h (heq ▸ hc)]
    simp
  unfold Key.ofText?
  simp only [hspace]
  rw [hchars, List.drop_left]
  simp

namespace Event.Payload

variable {p q : Payload}

/-- What an occurrence tells of a payload. -/
def bare : Payload → Payload
  | admitted .. => admitted 0 0
  | adopted _ => adopted 0
  | executionCreated .. => executionCreated { space := "", name := "" } 0
  | phaseChanged old new => phaseChanged old new
  | orphanRemoved => orphanRemoved
  | retentionExpired => retentionExpired
  | finalized => finalized
  | drainRequested => drainRequested
  | admissionRejected _ => admissionRejected ""

/-- Everything that an occurrence can tell. -/
def bares : List Payload :=
  [admitted 0 0, adopted 0, executionCreated { space := "", name := "" } 0, orphanRemoved,
    retentionExpired, finalized, drainRequested, admissionRejected ""] ++
  WorkUnit.Phase.all.flatMap fun old => WorkUnit.Phase.all.map fun new => phaseChanged old new

theorem bare_mem_bares (p : Payload) : p.bare ∈ bares := by
  cases p with
  | phaseChanged old new => cases old <;> cases new <;> decide
  | _ => simp [bare, bares]

theorem occurrence_bare (p : Payload) : p.bare.occurrence = p.occurrence := by cases p <;> rfl

/-- No occurrence with a colon in front is the end of another one. -/
theorem eq_of_suffix (hp : p ∈ bares) (hq : q ∈ bares)
    (h : (":" ++ p.occurrence).toList <:+ (":" ++ q.occurrence).toList) : p = q := by
  have hall : ∀ p ∈ bares, ∀ q ∈ bares,
      (":" ++ p.occurrence).toList <:+ (":" ++ q.occurrence).toList → p = q := by
    decide +kernel
  exact hall p hp q hq h

end Event.Payload

/-- Two events with one key are of the same kind, and their entities have the same text. -/
theorem Event.of_key_eq {e e' : Event} (h : e.idempotencyKey = e'.idempotencyKey) :
    e.payload.bare = e'.payload.bare ∧ e.entity.text = e'.entity.text := by
  have hchars : ∀ e : Event, e.idempotencyKey.toList =
      e.entity.text.toList ++ (":" ++ e.payload.bare.occurrence).toList := by
    intro e
    simp [Event.idempotencyKey, Event.Payload.occurrence_bare]
  have heq : e.entity.text.toList ++ (":" ++ e.payload.bare.occurrence).toList =
      e'.entity.text.toList ++ (":" ++ e'.payload.bare.occurrence).toList := by
    rw [← hchars, ← hchars, h]
  have hbare : e.payload.bare = e'.payload.bare := by
    rcases List.suffix_or_suffix_of_suffix (List.suffix_append ..)
      (heq ▸ List.suffix_append ..) with hend | hend
    · exact (Event.Payload.eq_of_suffix e'.payload.bare_mem_bares e.payload.bare_mem_bares
        hend).symm
    · exact Event.Payload.eq_of_suffix e.payload.bare_mem_bares e'.payload.bare_mem_bares hend
  rw [hbare] at heq
  exact ⟨hbare, String.ext (List.append_cancel_right heq)⟩

namespace Event.Payload

variable {p q : Payload}

/-- A payload without how many repositories a batch had and why a campaign was rejected. -/
def gist : Payload → Payload
  | admitted index _ => admitted index 0
  | admissionRejected _ => admissionRejected ""
  | adopted index => adopted index
  | executionCreated execution index => executionCreated execution index
  | phaseChanged old new => phaseChanged old new
  | orphanRemoved => orphanRemoved
  | retentionExpired => retentionExpired
  | finalized => finalized
  | drainRequested => drainRequested

/-- The index of the batch that a payload tells of. -/
def index? : Payload → Option Nat
  | admitted index _ | adopted index | executionCreated _ index => some index
  | phaseChanged .. | orphanRemoved | retentionExpired | finalized | drainRequested
  | admissionRejected _ => none

theorem gist_eq (hbare : p.bare = q.bare)
    (hindex : ∀ i j, p.index? = some i → q.index? = some j → i = j)
    (hexecution : ∀ x y i j, p = executionCreated x i → q = executionCreated y j → x = y) :
    p.gist = q.gist := by
  cases p with
  | admitted i n =>
    cases q <;> cases hbare
    exact congrArg (admitted · 0) (hindex _ _ rfl rfl)
  | adopted i =>
    cases q <;> cases hbare
    exact congrArg adopted (hindex _ _ rfl rfl)
  | executionCreated x i =>
    cases q <;> cases hbare
    exact congrArg₂ executionCreated (hexecution _ _ _ _ rfl rfl) (hindex _ _ rfl rfl)
  | _ =>
    cases q <;> cases hbare
    rfl

theorem eq_of_gist_eq (h : p.gist = q.gist) (hrejected : ∀ reason, p ≠ admissionRejected reason)
    (hrepositories : ∀ i n j m, p = admitted i n → q = admitted j m → n = m) : p = q := by
  cases p with
  | admitted i n =>
    cases q <;> cases h
    exact congrArg (admitted i) (hrepositories _ _ _ _ rfl rfl)
  | admissionRejected reason => exact absurd rfl (hrejected reason)
  | _ =>
    cases q <;> cases h
    rfl

end Event.Payload

namespace Fleet

open Lifecycle (unitSlot)
open Admission (indexSlot)

variable {excludes : Job → Job → Prop} {named : Key → Prop} {deletes : Prop}
  {w : World repertoire} {front front' : List Exchange} {e e' : Event}

/-! ## What is published -/

/-- What has been published is what an admission pass makes known, or a lifecycle pass. -/
theorem publishes_cases {rules : Rules repertoire} (hw : rules.Reachable w)
    (h : w.Publishes front e) : (∃ key, Admission.Notice key front e.entity e.payload) ∨
      Lifecycle.Notice e.entity front e.payload := by
  obtain ⟨t, ht, x, back, hpast, hevent⟩ := h
  obtain ⟨w₀, w₁, htook⟩ := hw.steps.exists_exchange ht hpast
  have htells := Took.tells ⟨hw.during, htook.before⟩ htook
  have hrequest : x.request = .publish e := by
    cases hx : x.request with
    | publish =>
      rw [hx] at hevent
      cases hevent
      rfl
    | _ => rw [hx] at hevent; cases hevent
  rw [hrequest] at htells
  cases hjob : t.job with
  | report =>
    rw [hjob] at htells
    exact htells.elim
  | pass job =>
    rw [hjob] at htells
    cases job with
    | admission settings key now => exact .inl ⟨key, htells⟩
    | lifecycle =>
      obtain ⟨rfl, hnotice⟩ := htells
      exact .inr hnotice

theorem past_of_publishes {x : Exchange} (h : w.Publishes front e) (hx : x ∈ front) :
    w.Past x := by
  obtain ⟨t, ht, y, back, hpast, -⟩ := h
  exact ⟨t, ht, hpast ▸ List.mem_append_left _ hx⟩

/-- The index of a batch is in the name of the work unit. -/
theorem name_of_index (hw : (rulesWith excludes named deletes).Reachable w)
    (h : w.Publishes front e) {index : Nat} (hindex : e.payload.index? = some index) :
    ∃ campaign, e.entity.name = Naming.workUnit campaign index := by
  rcases publishes_cases hw h with ⟨key, hnotice⟩ | hnotice
  · cases hpayload : e.payload with
    | admitted =>
      rw [hpayload] at hnotice hindex
      cases hindex
      exact ⟨key.name, congrArg Key.name hnotice.1⟩
    | adopted =>
      rw [hpayload] at hnotice hindex
      cases hindex
      exact ⟨key.name, congrArg Key.name (show e.entity = (indexSlot key index).key from hnotice)⟩
    | executionCreated =>
      rw [hpayload] at hnotice
      exact hnotice.elim
    | _ => rw [hpayload] at hindex; cases hindex
  · cases hpayload : e.payload with
    | admitted | adopted =>
      rw [hpayload] at hnotice
      exact hnotice.elim
    | executionCreated =>
      rw [hpayload] at hnotice hindex
      cases hindex
      obtain ⟨-, x, hx, o, u, found, hdecode, rfl⟩ := hnotice
      obtain ⟨t, ht, hpast⟩ := past_of_publishes h hx
      obtain ⟨_, w₀, _, -, hw₀, -, htook⟩ := hw.exists_exchange ht hpast
      rw [← htook.store_before] at found
      obtain ⟨owner, u', -, -, hdecode', -, -, hname⟩ := (descends hw₀ _ o found).of_unit
      cases hdecode.symm.trans hdecode'
      exact ⟨owner.name, hname⟩
    | _ => rw [hpayload] at hindex; cases hindex

/-- An execution has the key of its work unit. -/
theorem execution_eq {rules : Rules repertoire} (hw : rules.Reachable w) (h : w.Publishes front e)
    {execution : Key} {index : Nat} (hpayload : e.payload = .executionCreated execution index) :
    execution = e.entity := by
  rcases publishes_cases hw h with ⟨key, hnotice⟩ | hnotice
  · rw [hpayload] at hnotice
    exact hnotice.elim
  · rw [hpayload] at hnotice
    exact hnotice.1

/-- An admission tells of the work unit that has been created, with the identity that it got. -/
theorem creation_of_admitted {rules : Rules repertoire} (hw : rules.Reachable w)
    (h : w.Publishes front e) {index repositories : Nat}
    (hpayload : e.payload = .admitted index repositories) :
    ∃ u : WorkUnit, ∃ stored s₁ s₂,
      w.Past (.creation .workUnit (Resource.encode u) stored s₁ s₂) ∧
      u.spec.repositories.length = repositories ∧
      incarnation? e.slot front = some (.issued (s₁.created + 1)) := by
  rcases publishes_cases hw h with ⟨key, hnotice⟩ | hnotice
  · rw [hpayload] at hnotice
    obtain ⟨hentity, front₀, s₁, s₂, s₃, stored, m, u, rfl, hkey, hlength, found, huid⟩ := hnotice
    refine ⟨u, stored, s₁, s₂, past_of_publishes h (by simp), hlength, ?_⟩
    have hslot : e.slot = unitSlot u.key := by
      rw [Event.slot, hpayload, hkey]
    have found' : s₂.find? (unitSlot u.key) = some stored := by
      rw [hkey, hentity]
      exact found
    have hmet := @Exchange.met?_of_after (unitSlot u.key)
      (.creation .workUnit (Resource.encode u) stored s₁ s₂) _ _ rfl rfl found'
    rw [hslot, List.append_cons, incarnation?_append_none rfl, incarnation?_append hmet, huid]
  · rw [hpayload] at hnotice
    exact hnotice.elim

/-- **What an idempotency key tells.** Two events with one key are of the same kind, with the same
phases, and the texts of their entities are the same, so that they are about one entity unless
there is a slash in a namespace. Of one entity they tell the same, but for how many repositories a
batch had and why a campaign was rejected, and of one incarnation of a work unit they tell the same
altogether. -/
theorem key_tells (hw : (rulesWith excludes named deletes).Reachable w)
    (h : w.Publishes front e) (h' : w.Publishes front' e')
    (hkey : e.idempotencyKey = e'.idempotencyKey) :
    e.payload.bare = e'.payload.bare ∧ e.entity.text = e'.entity.text ∧
    ('/' ∉ e.entity.space.toList → '/' ∉ e'.entity.space.toList → e.entity = e'.entity) ∧
    (e.entity = e'.entity → e.payload.gist = e'.payload.gist ∧
      (incarnation? e.slot front = incarnation? e'.slot front' →
        (∀ reason, e.payload ≠ .admissionRejected reason) → e.payload = e'.payload)) := by
  obtain ⟨hbare, htext⟩ := Event.of_key_eq hkey
  refine ⟨hbare, htext, fun hslash hslash' => ?_, fun hentity => ?_⟩
  · have hread := Key.ofText?_text hslash
    rw [htext, Key.ofText?_text hslash'] at hread
    exact (Option.some.inj hread).symm
  have hgist : e.payload.gist = e'.payload.gist := by
    apply Event.Payload.gist_eq hbare
    · intro i j hi hj
      obtain ⟨campaign, hname⟩ := name_of_index hw h hi
      obtain ⟨campaign', hname'⟩ := name_of_index hw h' hj
      exact Naming.workUnit_index_inj (hname.symm.trans ((congrArg Key.name hentity).trans hname'))
    · intro x y i j hx hy
      rw [execution_eq hw h hx, execution_eq hw h' hy, hentity]
  refine ⟨hgist, fun hincarnation hrejected => ?_⟩
  apply Event.Payload.eq_of_gist_eq hgist hrejected
  intro i n j m hn hm
  obtain ⟨u, stored, s₁, s₂, hpast, rfl, huid⟩ := creation_of_admitted hw h hn
  obtain ⟨u', stored', s₁', s₂', hpast', rfl, huid'⟩ := creation_of_admitted hw h' hm
  rw [huid, huid'] at hincarnation
  have hcreated := Nat.succ.inj (Uid.issued_inj.1 (Option.some.inj hincarnation))
  -- both tell of one creation
  have hsame := hw.creation_eq hpast hpast' hcreated
  have hencode : Resource.encode u = Resource.encode u' := by
    injection hsame with hrequest
    injection hrequest with hrequest
    injection hrequest
  have hunit : (.ok u : Except StoreError WorkUnit) = .ok u' := by
    rw [← Resource.decode_encode u, ← Resource.decode_encode u', hencode]
  cases hunit
  rfl

/-! ## What a key does not tell -/

/-- Two events with one key are published in a fleet. -/
structure Collide (w : World repertoire) (front front' : List Exchange) (e e' : Event) : Prop where
  reachable : (rules (fun _ => True) True).Reachable w
  first : w.Publishes front e
  second : w.Publishes front' e'
  key : e.idempotencyKey = e'.idempotencyKey

/-- Whether there are two publications with one key in a world, of which something holds. -/
def collides (p : List Exchange × Event → List Exchange × Event → Bool) (w : World repertoire) :
    Bool :=
  (w.tasks.flatMap Task.publications).any fun a =>
    (w.tasks.flatMap Task.publications).any fun b =>
      decide (a.2.idempotencyKey = b.2.idempotencyKey) && p a b

theorem exists_collide {p : List Exchange × Event → List Exchange × Event → Bool}
    (hw : (rules (fun _ => True) True).Reachable w) (h : collides p w) :
    ∃ front e front' e', Collide w front front' e e' ∧ p (front, e) (front', e') := by
  obtain ⟨a, ha, hany⟩ := List.any_eq_true.1 h
  obtain ⟨b, hb, hboth⟩ := List.any_eq_true.1 hany
  obtain ⟨hkey, hp⟩ := Bool.and_eq_true_iff.1 hboth
  obtain ⟨t, ht, ha⟩ := List.mem_flatMap.1 ha
  obtain ⟨t', ht', hb⟩ := List.mem_flatMap.1 hb
  exact ⟨a.1, a.2, b.1, b.2,
    ⟨hw, w.publishes_of_mem ht ha, w.publishes_of_mem ht' hb, of_decide_eq_true hkey⟩, hp⟩

/-- A campaign with so many batches. -/
def sampleBatches (key : Key) (batches : Int64) (version : Nat) : Campaign where
  metadata := { key, version }
  spec := { policy := { strategy := .fixedBatchCount, batchSize := batches, parallelism := 1 } }

/-- A pass over a campaign, to its end. -/
def samplePass (index : Nat) (key : Key) (repositories : List String) : List (Turn repertoire) :=
  .start (.pass (.admission {} key .epoch)) ::
    List.replicate 12 (.answer index .epoch {} repositories)

/-- Two campaigns are rejected whose keys have the same text, and one of them is rejected again for
another reason. -/
def sampleRejections : List (Turn repertoire) :=
  let key : Key := { space := "fleet/night", name := "sweep" }
  let key' : Key := { space := "fleet", name := "night/sweep" }
  .outside .epoch (.create .campaign (Resource.encode (sampleBatches key 0 0))) ::
    samplePass 0 key [] ++
  .outside .epoch (.create .campaign (Resource.encode (sampleBatches key' 0 0))) ::
    samplePass 1 key' [] ++
  .outside .epoch (.update .campaign (Resource.encode (sampleBatches key' (-1) 4))) ::
    samplePass 2 key' []

/-- A work unit has been created. -/
def sampleAdmission : List (Turn repertoire) :=
  .outside .epoch (.create .campaign (Resource.encode (sampleBatches ⟨"fleet", "sweep"⟩ 1 0))) ::
    samplePass 0 ⟨"fleet", "sweep"⟩ ["first"]

/-- The world after an object that owns nothing has gone from it. -/
def World.without (w : World repertoire) (slot : Slot) : World repertoire :=
  { w with store := w.store.advance.drop slot }

/-- Whether there is an object which goes alone when it is deleted. -/
def goesAlone (s : Store) (slot : Slot) : Bool :=
  (s.find? slot).any fun o =>
    decide (o.metadata.finalizers = [] ∧ (s.advance.drop slot).ownedBy o.metadata.uid = [])

theorem steps_without {slot : Slot} (h : goesAlone w.store slot) :
    (rules (fun _ => True) True).Steps w (World.without w slot) := by
  obtain ⟨o, found, halone⟩ := Option.any_eq_true _ _ |>.1 h
  obtain ⟨hfin, hnone⟩ := of_decide_eq_true halone
  have hgone := Store.delete_of_childless found hfin hnone .epoch
    (show Propagation.background ≠ .orphan by decide)
  rw [World.without, ← hgone]
  exact .single ⟨.outside .epoch (.delete slot.kind slot.key .background) ⟨trivial, nofun⟩, trivial⟩

/-- A work unit goes that has been created, and it is created again when one repository more has
been discovered. -/
theorem exists_again : ∃ w front e front' e', Collide w front front' e e' ∧
    e.entity = e'.entity ∧ incarnation? e.slot front ≠ incarnation? e'.slot front' ∧
      e.payload ≠ e'.payload := by
  have hplay : ((rules (fun _ => True) True).play {} sampleAdmission).any fun w =>
      goesAlone w.store (unitSlot (Lifecycle.sampleUnit 0)) &&
      ((rules (fun _ => True) True).play (World.without w (unitSlot (Lifecycle.sampleUnit 0)))
        (samplePass 1 ⟨"fleet", "sweep"⟩ ["first", "second"])).any
          (collides fun a b => decide (a.2.entity = b.2.entity ∧
            incarnation? a.2.slot a.1 ≠ incarnation? b.2.slot b.1 ∧
            a.2.payload ≠ b.2.payload)) := by
    decide +kernel
  obtain ⟨w, hsteps, hplayed⟩ := Rules.exists_of_play hplay
  obtain ⟨halone, hplay'⟩ := Bool.and_eq_true_iff.1 hplayed
  obtain ⟨w', hsteps', hcollides⟩ := Rules.exists_of_play hplay'
  have hw' : (rules (fun _ => True) True).Reachable w' :=
    ⟨trivial, (hsteps.trans (steps_without halone)).trans hsteps'⟩
  obtain ⟨front, e, front', e', hcollide, hp⟩ := exists_collide hw' hcollides
  exact ⟨w', front, e, front', e', hcollide, of_decide_eq_true hp⟩

theorem key_tells_sample : ∃ w front e front' e', Collide w front front' e e' ∧
    incarnation? e.slot front ≠ incarnation? e'.slot front' ∧ e.payload ≠ e'.payload ∧
      e.payload.gist = e'.payload.gist := by
  obtain ⟨w, front, e, front', e', h, hentity, hincarnation, hpayload⟩ := exists_again
  obtain ⟨-, -, -, htells⟩ := key_tells h.reachable h.first h.second h.key
  exact ⟨w, front, e, front', e', h, hincarnation, hpayload, (htells hentity).1⟩

/-- A key tells neither the entity, nor its incarnation, nor all of what is made known. -/
theorem keys_repeat :
    (∃ w front e front' e', Collide w front front' e e' ∧ e.entity ≠ e'.entity) ∧
    (∃ w front e front' e', Collide w front front' e e' ∧ e.entity = e'.entity ∧
      incarnation? e.slot front ≠ incarnation? e'.slot front' ∧ e.payload ≠ e'.payload) ∧
    ∃ w front e front' e', Collide w front front' e e' ∧ e.entity = e'.entity ∧
      incarnation? e.slot front = incarnation? e'.slot front' ∧ e.payload ≠ e'.payload := by
  have hplay : ((rules (fun _ => True) True).play {} sampleRejections).any fun w =>
      collides (fun a b => decide (a.2.entity ≠ b.2.entity)) w &&
      collides (fun a b => decide (a.2.entity = b.2.entity ∧
        incarnation? a.2.slot a.1 = incarnation? b.2.slot b.1 ∧ a.2.payload ≠ b.2.payload)) w := by
    decide +kernel
  obtain ⟨w, hsteps, hplayed⟩ := Rules.exists_of_play hplay
  obtain ⟨hentity, hreason⟩ := Bool.and_eq_true_iff.1 hplayed
  have hw : (rules (fun _ => True) True).Reachable w := ⟨trivial, hsteps⟩
  obtain ⟨front, e, front', e', hcollide, hp⟩ := exists_collide hw hentity
  obtain ⟨front₁, e₁, front₁', e₁', hcollide', hp'⟩ := exists_collide hw hreason
  exact ⟨⟨w, front, e, front', e', hcollide, of_decide_eq_true hp⟩, exists_again,
    w, front₁, e₁, front₁', e₁', hcollide', of_decide_eq_true hp'⟩

end Fleet
end CampaignControl
