import CampaignControl.Proofs.Concurrency.Requests
import CampaignControl.Proofs.Concurrency.Script

/-!
# Changes side by side

Any number of changes (`Pass.modifyBy`) of any objects, side by side with each other and with
whatever else is requested of the store. A change reads, works on what it has read and writes the
result back if the store still has the version that was read; otherwise it reads again. As no
version is used twice, what it overwrites is what it has read (`Amendment.Progress`), even when
the object has been removed meanwhile and another one created in its place.
-/

namespace CampaignControl

/-- A request that has left the store as it was. -/
def Exchange.IsIdle (e : Exchange) : Prop := e.after = e.before

/-- The reading of an object that was found. -/
def Exchange.read (slot : Slot) (object : Object) (s : Store) : Exchange where
  request := .store (.get slot.kind slot.key)
  reply := .ok object
  before := s
  after := s

/-- The writing of an object, which has been stored. -/
def Exchange.write (kind : Kind) (object stored : Object) (before after : Store) : Exchange where
  request := .store (.update kind object)
  reply := .ok stored
  before
  after

/-- A change of the object at a key, as a program of its own. In each attempt the change may do
something else, and it leaves the key and the version of the object alone. -/
structure Amendment where
  {Target : Type}
  {Note : Type}
  [resource : Resource Target]
  [lawful : LawfulResource Target]
  key : Key
  attempts : Nat
  change : Nat → Target → Target × Option Note
  keeps : ∀ left, Pass.KeepsPlace (change left)

namespace Amendment

attribute [instance] Amendment.resource Amendment.lawful

/-- What a change comes to: the object and the note on it, if there is an object. -/
abbrev Result (c : Amendment) : Type := Except Error (Option (c.Target × Option c.Note))

def slot (c : Amendment) : Slot := { kind := Resource.kind c.Target, key := c.key }

/-- The change with so many attempts left. -/
def within (c : Amendment) (left : Nat) : Program c.Result :=
  (Pass.modifyWithin c.key c.change (max c.attempts 1) left).run

/-- The object has been written once, and nothing else has been done to the store. The last
object that was read, on which the change has worked, is the one that was stored immediately
before the writing. -/
inductive WroteOnce (c : Amendment) (a : c.Target) (note : c.Note) : List Exchange → Prop where
  | intro (left : Nat) {front : List Exchange} {object stored : Object} {current changed : c.Target}
      {earlier before after : Store} (now : Instant) :
    (∀ e ∈ front, e.IsIdle) →
    Resource.decode object = .ok current →
    c.change left current = (changed, some note) →
    before.find? c.slot = some object →
    before.update now c.slot.kind (Resource.encode changed) = (.ok stored, after) →
    Resource.decode stored = .ok a →
    WroteOnce c a note (front ++ [.read c.slot object earlier,
      .write c.slot.kind (Resource.encode changed) stored before after])

/-- Whether a result says that the object has been written. -/
def IsWritten {c : Amendment} (result : c.Result) : Prop :=
  ∃ a note, result = .ok (some (a, some note))

/-- How far a change has come: its remaining program, and what it has requested, beside the
store. -/
inductive Progress (c : Amendment) : Program c.Result → List Exchange → Store → Prop where
  | reading (left : Nat) {past : List Exchange} {s : Store} :
    (∀ e ∈ past, e.IsIdle) → Progress c (c.within left) past s
  /-- What has been read may have been changed since. -/
  | writing (left : Nat) {front : List Exchange} {object : Object} {current changed : c.Target}
      {note : c.Note} {earlier s : Store} :
    (∀ e ∈ front, e.IsIdle) → earlier.Sound → earlier.Follows s →
    earlier.find? c.slot = some object → Resource.decode object = .ok current →
    c.change left current = (changed, some note) →
    Progress c (.ask (.store (.update c.slot.kind (Resource.encode changed)))
      (Pass.afterWrite c.key c.change (max c.attempts 1) left note))
      (front ++ [.read c.slot object earlier]) s
  | idle {result : c.Result} {past : List Exchange} {s : Store} :
    (∀ e ∈ past, e.IsIdle) → ¬ IsWritten result → Progress c (.done result) past s
  | written {a : c.Target} {note : c.Note} {past : List Exchange} {s : Store} :
    c.WroteOnce a note past → Progress c (.done (.ok (some (a, some note)))) past s

namespace Progress

variable {c : Amendment} {rest : Program c.Result} {past : List Exchange} {s s' : Store}

theorem follows (h : c.Progress rest past s) (hfollows : s.Follows s') :
    c.Progress rest past s' := by
  cases h with
  | reading left hidle => exact .reading left hidle
  | writing left hidle hsound hearlier hfind hdecode hchange =>
    exact .writing left hidle hsound (hearlier.trans hfollows) hfind hdecode hchange
  | idle hidle hresult => exact .idle hidle hresult
  | written hwrote => exact .written hwrote

theorem not_isWritten_none : ¬ IsWritten (c := c) (.ok none) := by
  rintro ⟨a, note, h⟩
  cases h

theorem not_isWritten_error (e : Error) : ¬ IsWritten (c := c) (.error e) := by
  rintro ⟨a, note, h⟩
  cases h

theorem not_isWritten_same (a : c.Target) : ¬ IsWritten (c := c) (.ok (some (a, none))) := by
  rintro ⟨a, note, h⟩
  cases h

theorem idle_append {e : Exchange} (hidle : ∀ e ∈ past, e.IsIdle) (he : e.IsIdle) :
    ∀ e' ∈ past ++ [e], e'.IsIdle := by
  intro e' h
  rcases List.mem_append.1 h with h | h
  · exact hidle e' h
  · cases List.mem_singleton.1 h
    exact he

/-- A change that has read goes on. -/
theorem read {left : Nat} {reply : Except StoreError Object} (hidle : ∀ e ∈ past, e.IsIdle)
    (hs : s.Sound) (h : (Request.store (.get c.slot.kind c.key)).Answered s reply s') :
    c.Progress (Pass.afterRead c.key c.change (max c.attempts 1) left reply)
      (past ++ [{ request := .store (.get c.slot.kind c.key), reply, before := s, after := s' }])
      s' := by
  obtain ⟨rfl, hfound, -⟩ := h.get_cases
  have hidle' := idle_append hidle
    (e := { request := .store (.get c.slot.kind c.key), reply, before := s', after := s' }) rfl
  simp only [Pass.afterRead]
  cases hf : (Pass.found? reply : Except Error (Option c.Target)) with
  | error e => exact .idle hidle' (not_isWritten_error e)
  | ok found =>
    cases found with
    | none => exact .idle hidle' not_isWritten_none
    | some current =>
      obtain ⟨object, rfl, hdecode⟩ := Pass.found?_eq_some hf
      cases hc : c.change left current with
      | mk changed note =>
        simp only [hc]
        cases note with
        | none => exact .idle hidle' (not_isWritten_same changed)
        | some note =>
          exact .writing left hidle hs (.refl s') (hfound object rfl) hdecode hc

/-- A change that has written, or has tried to, goes on. -/
theorem write {left : Nat} {front : List Exchange} {object : Object} {current changed : c.Target}
    {note : c.Note} {earlier : Store} {reply : Except StoreError Object}
    (hidle : ∀ e ∈ front, e.IsIdle) (hsound : earlier.Sound) (hfollows : earlier.Follows s)
    (hfind : earlier.find? c.slot = some object) (hdecode : Resource.decode object = .ok current)
    (hchange : c.change left current = (changed, some note))
    (h : (Request.store (.update c.slot.kind (Resource.encode changed))).Answered s reply s') :
    c.Progress (Pass.afterWrite c.key c.change (max c.attempts 1) left note reply)
      (front ++ [.read c.slot object earlier] ++
        [{ request := .store (.update c.slot.kind (Resource.encode changed)), reply
           before := s, after := s' }]) s' := by
  obtain ⟨hkey, hversion⟩ := c.keeps left hchange
  rw [Resource.metadata_of_decode hdecode] at hkey hversion
  rcases h.update_cases hsound hfollows hfind hkey hversion with
    ⟨hnow, ⟨now, hupdate⟩, rfl, -, -⟩ | ⟨e, rfl, rfl, -⟩
  · rw [Pass.afterWrite_revised, List.append_assoc]
    exact .written
      (.intro left now hidle hdecode hchange hnow hupdate (Resource.decode_stored _ changed))
  · have hidle' := idle_append (idle_append hidle (e := .read c.slot object earlier) rfl)
      (e := { request := .store (.update c.slot.kind (Resource.encode changed))
              reply := .error e, before := s', after := s' }) rfl
    simp only [Pass.afterWrite, Pass.decoded]
    split
    · exact .reading left hidle'
    · split
      · exact .idle hidle' not_isWritten_none
      · exact .idle hidle' (not_isWritten_error _)

/-- A change that is not done goes on. -/
theorem answer {r : Request} {next : r.Reply → Program c.Result} {reply : r.Reply}
    (h : c.Progress rest past s) (hs : s.Sound) (hrest : rest = .ask r next)
    (hanswered : r.Answered s reply s') :
    c.Progress (next reply) (past ++ [{ request := r, reply, before := s, after := s' }]) s' := by
  cases h with
  | reading left hidle =>
    cases left with
    | zero => cases hrest
    | succ left =>
      rw [within, Pass.run_modifyWithin_succ] at hrest
      cases hrest
      exact read hidle hs hanswered
  | writing left hidle hsound hfollows hfind hdecode hchange =>
    cases hrest
    exact write hidle hsound hfollows hfind hdecode hchange hanswered
  | idle | written => cases hrest

/-- A change that is done has written its object once, or nothing at all. -/
theorem of_done {result : c.Result} (h : c.Progress rest past s) (hrest : rest = .done result) :
    (∀ a note, result = .ok (some (a, some note)) → c.WroteOnce a note past) ∧
      (¬ IsWritten result → ∀ e ∈ past, e.IsIdle) := by
  cases h with
  | reading left hidle =>
    cases left with
    | zero =>
      cases hrest
      exact ⟨nofun, fun _ => hidle⟩
    | succ left =>
      rw [within, Pass.run_modifyWithin_succ] at hrest
      cases hrest
  | writing => cases hrest
  | idle hidle hresult =>
    cases hrest
    exact ⟨fun a note h => absurd ⟨a, note, h⟩ hresult, fun _ => hidle⟩
  | @written a note past s hwrote =>
    cases hrest
    refine ⟨fun a' note' h => ?_, fun h => absurd ⟨a, note, rfl⟩ h⟩
    cases h
    exact hwrote

end Progress

/-! ## All changes together -/

/-- Changes as jobs. -/
def repertoire : Repertoire where
  Job := Amendment
  Result := Result
  program c := (Pass.modifyBy c.key c.attempts c.change).run

/-- Every change may be started at any time, and everything may be requested from outside. -/
def rules : Rules repertoire where
  excludes _ _ := False
  outside _ := True

instance : DecidableRel rules.excludes := inferInstanceAs (DecidableRel fun _ _ => False)

instance : DecidablePred rules.outside := inferInstanceAs (DecidablePred fun _ => True)

instance : DecidablePred rules.during := inferInstanceAs (DecidablePred fun _ => True)

theorem upheld : rules.Upheld (fun _ => True) (fun _ s s' => s.Follows s')
    fun t s => Progress t.job t.rest t.past s where
  empty := trivial
  start {c _} _ _ _ := .reading (max c.attempts 1) fun e he => by cases he
  answer _ hs _ hprogress _ hrest hanswered _ :=
    ⟨trivial, hanswered.edits.follows, hprogress.answer hs hrest hanswered⟩
  beside hfollows _ _ _ hprogress _ _ := hprogress.follows hfollows
  abandon hprogress := hprogress
  outside {now r s} _ _ _ _ _ :=
    ⟨trivial, fun hprogress => hprogress.follows (Store.serve_follows now r s)⟩

/-- **No lost update.** However changes, other requests and faults are interleaved: a change that
answers with a note has written its object once, over exactly the object that it has worked on,
and a change that answers anything else has itself done nothing to the store. -/
theorem no_lost_update {w : World repertoire} (hw : rules.Reachable w) {t : Task repertoire}
    (ht : t ∈ w.tasks) {result : t.job.Result} (hdone : t.rest = .done result) :
    (∀ a note, result = .ok (some (a, some note)) → t.job.WroteOnce a note t.past) ∧
      ((∀ a note, result ≠ .ok (some (a, some note))) → ∀ e ∈ t.past, e.after = e.before) := by
  obtain ⟨hwrote, hidle⟩ := ((upheld.holds hw).2 t ht).of_done hdone
  refine ⟨hwrote, fun h => hidle ?_⟩
  rintro ⟨a, note, heq⟩
  exact h a note heq

/-- One more batch for a configuration document. -/
def sample : Amendment where
  Target := ConfigDocument
  Note := Unit
  key := { space := "fleet", name := "sweep-batches" }
  attempts := 2
  change _ d := ({ d with batches := d.batches ++ [.null] }, some ())
  keeps _ current changed note h := by cases h; exact ⟨rfl, rfl⟩

/-- Two changes read the same document before either of them has written. -/
def sampleScript : List (Turn repertoire) :=
  let document : ConfigDocument := { metadata := { key := sample.key } }
  [.outside .epoch (.create .configDocument (Resource.encode document)),
    .start sample, .start sample, .answer 0 .epoch {} [], .answer 1 .epoch {} [],
    .answer 0 .epoch {} [], .answer 1 .epoch {} [], .answer 1 .epoch {} [], .answer 1 .epoch {} []]

/-- Whether a change has answered with a note. -/
def hasWritten {c : Amendment} : Program c.Result → Bool
  | .done (.ok (some (_, some _))) => true
  | _ => false

theorem exists_of_hasWritten {c : Amendment} {p : Program c.Result} (h : hasWritten p) :
    ∃ a note, p = .done (.ok (some (a, some note))) := by
  unfold hasWritten at h
  split at h
  · exact ⟨_, _, rfl⟩
  · cases h

/-- The second one of two changes writes in its second attempt. -/
theorem no_lost_update_sample :
    ∃ w, rules.Reachable w ∧ ∃ t ∈ w.tasks, t.past.length = 4 ∧
      ∃ a note, t.rest = .done (.ok (some (a, some note))) ∧ t.job.WroteOnce a note t.past := by
  have hplay : (rules.play {} sampleScript).any fun w => w.tasks.any fun t =>
      hasWritten t.rest && t.past.length == 4 := by decide +kernel
  obtain ⟨w, hsteps, hwritten⟩ := Rules.exists_of_play hplay
  obtain ⟨t, ht, hcheck⟩ := List.any_eq_true.1 hwritten
  obtain ⟨hwrote, hlength⟩ := Bool.and_eq_true_iff.1 hcheck
  obtain ⟨a, note, hdone⟩ := exists_of_hasWritten hwrote
  have hreachable : rules.Reachable w := ⟨trivial, hsteps⟩
  exact ⟨w, hreachable, t, ht, beq_iff_eq.1 hlength, a, note, hdone,
    (no_lost_update hreachable ht hdone).1 a note rfl⟩

end Amendment
end CampaignControl
