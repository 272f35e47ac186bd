import CampaignControl.Proofs.Resource.Whole

/-!
# Objects with any timestamps

What a store holds has instants for its times. An object that is put into a store may hold other
timestamps, in leap seconds within a minute. It is written like the object in which they are settled
(`Dated.toJson_settled`), so that one is read back (`Dated.roundTrip`): it is the object itself
exactly if all its times are clear.
-/

namespace CampaignControl

variable {τ υ : Type}

theorem Json.ofInstant_settled (t : Timestamp) : ofInstant t.settled = ofInstant t :=
  congrArg Json.string (Timestamp.text_settled t)

theorem Json.ofOption_settled (t : Option Timestamp) :
    ofOption ofInstant (t.map Timestamp.settled) = ofOption ofInstant t := by
  cases t with
  | none => rfl
  | some t => exact ofInstant_settled t

namespace Timestamp

/-- None of these times lies in a leap second within a minute. -/
def AllClear (times : List Timestamp) : Prop := ∀ t ∈ times, t.IsClear

instance (times : List Timestamp) : Decidable (AllClear times) :=
  inferInstanceAs (Decidable (∀ t ∈ times, t.IsClear))

theorem allClear_append {times times' : List Timestamp} :
    AllClear (times ++ times') ↔ AllClear times ∧ AllClear times' := by
  simp only [AllClear, List.mem_append, or_imp, forall_and]

theorem allClear_cons {t : Timestamp} {times : List Timestamp} :
    AllClear (t :: times) ↔ t.IsClear ∧ AllClear times := List.forall_mem_cons

theorem map_settled_iff {t : Option Timestamp} :
    (t.map settled).map Instant.toTimestamp = t ↔ AllClear t.toList := by
  cases t with
  | none => simp [AllClear]
  | some t => simp [AllClear, toTimestamp_settled_iff]

end Timestamp

/-! ## Conditions -/

namespace Condition

def mapTimes (f : τ → υ) (c : Condition τ) : Condition υ := { c with since := f c.since }

theorem toJson_settled (c : Condition Timestamp) :
    (c.mapTimes Timestamp.settled).toJson = c.toJson := by
  simp only [toJson, mapTimes, Json.ofInstant_settled]

theorem listToJson_settled (conditions : List (Condition Timestamp)) :
    listToJson (conditions.map (mapTimes Timestamp.settled)) = listToJson conditions := by
  simp only [listToJson, List.map_map, Function.comp_def, toJson_settled]

theorem map_settled_iff {conditions : List (Condition Timestamp)} :
    (conditions.map (mapTimes Timestamp.settled)).map (mapTimes Instant.toTimestamp) = conditions ↔
      Timestamp.AllClear (conditions.map since) := by
  induction conditions with
  | nil => simp [Timestamp.AllClear]
  | cons c conditions ih =>
    have hc : (c.mapTimes Timestamp.settled).mapTimes Instant.toTimestamp = c ↔
        c.since.IsClear := by
      cases c
      simp [mapTimes, Timestamp.toTimestamp_settled_iff]
    rw [List.map_cons, List.map_cons, List.cons.injEq, hc, ih, List.map_cons,
      Timestamp.allClear_cons]

end Condition

/-! ## Metadata -/

namespace Metadata

def mapTimes (f : τ → υ) (m : Metadata τ) : Metadata υ :=
  { m with createdAt := m.createdAt.map f, deletedAt := m.deletedAt.map f }

def times (m : Metadata τ) : List τ := m.createdAt.toList ++ m.deletedAt.toList

theorem toJson_settled (m : Metadata Timestamp) :
    (m.mapTimes Timestamp.settled).toJson = m.toJson := by
  simp only [toJson, mapTimes, Json.ofOption_settled]
  rfl

theorem settled_iff {m : Metadata Timestamp} :
    (m.mapTimes Timestamp.settled).mapTimes Instant.toTimestamp = m ↔
      Timestamp.AllClear m.times := by
  cases m
  simp only [mapTimes, times, mk.injEq, true_and, Timestamp.map_settled_iff,
    Timestamp.allClear_append]

end Metadata

/-! ## Contents -/

namespace Campaign

def Status.mapTimes (f : τ → υ) (s : Status τ) : Status υ :=
  { s with
    lastAdmission := s.lastAdmission.map f
    conditions := s.conditions.map (Condition.mapTimes f) }

def Status.times (s : Status τ) : List τ :=
  s.lastAdmission.toList ++ s.conditions.map Condition.since

theorem Status.toJson_settled (s : Status Timestamp) :
    (s.mapTimes Timestamp.settled).toJson = s.toJson := by
  simp only [toJson, mapTimes, Json.ofOption_settled, Condition.listToJson_settled]

theorem Status.settled_iff {s : Status Timestamp} :
    (s.mapTimes Timestamp.settled).mapTimes Instant.toTimestamp = s ↔
      Timestamp.AllClear s.times := by
  cases s
  simp only [mapTimes, times, mk.injEq, true_and, Timestamp.map_settled_iff,
    Condition.map_settled_iff, Timestamp.allClear_append]

end Campaign

namespace WorkUnit

def Status.mapTimes (f : τ → υ) (s : Status τ) : Status υ :=
  { s with
    startTime := s.startTime.map f
    completionTime := s.completionTime.map f
    conditions := s.conditions.map (Condition.mapTimes f) }

def Status.times (s : Status τ) : List τ :=
  s.startTime.toList ++ s.completionTime.toList ++ s.conditions.map Condition.since

theorem Status.toJson_settled (s : Status Timestamp) :
    (s.mapTimes Timestamp.settled).toJson = s.toJson := by
  simp only [toJson, mapTimes, Json.ofOption_settled, Condition.listToJson_settled]

theorem Status.settled_iff {s : Status Timestamp} :
    (s.mapTimes Timestamp.settled).mapTimes Instant.toTimestamp = s ↔
      Timestamp.AllClear s.times := by
  cases s
  simp only [mapTimes, times, mk.injEq, true_and, Timestamp.map_settled_iff,
    Condition.map_settled_iff, Timestamp.allClear_append, and_assoc]

end WorkUnit

namespace Execution

def Status.mapTimes (f : τ → υ) (s : Status τ) : Status υ :=
  { s with
    startTime := s.startTime.map f
    completionTime := s.completionTime.map f
    conditions := s.conditions.map (Condition.mapTimes f) }

def Status.times (s : Status τ) : List τ :=
  s.startTime.toList ++ s.completionTime.toList ++ s.conditions.map Condition.since

theorem Status.toJson_settled (s : Status Timestamp) :
    (s.mapTimes Timestamp.settled).toJson = s.toJson := by
  simp only [toJson, mapTimes, Json.ofOption_settled, Condition.listToJson_settled]

theorem Status.settled_iff {s : Status Timestamp} :
    (s.mapTimes Timestamp.settled).mapTimes Instant.toTimestamp = s ↔
      Timestamp.AllClear s.times := by
  cases s
  simp only [mapTimes, times, mk.injEq, true_and, Timestamp.map_settled_iff,
    Condition.map_settled_iff, Timestamp.allClear_append, and_assoc]

end Execution

/-! ## Objects -/

/-- A family of types of objects, one for each type of the times that they hold. -/
class Dated (F : Type → Type) where
  metadata {τ : Type} : F τ → Metadata τ
  /-- The fields apart from the metadata. -/
  body {τ : Type} [Moment τ] : F τ → List (String × Json)
  mapTimes {τ υ : Type} : (τ → υ) → F τ → F υ
  times {τ : Type} : F τ → List τ

namespace Dated

variable {F : Type → Type} [Dated F]

/-- The object as a whole in JSON. -/
def toJson [Moment τ] (a : F τ) : Json :=
  .object (Keyed.insert "metadata" (metadata a).toJson (body a))

/-- What is put into a store, unless the object has no metadata that can be read. -/
def encode? [Moment τ] (a : F τ) : Option Object := Object.ofJson? (toJson a)

/-- The object with its times settled. -/
def settled (a : F Timestamp) : F Instant := mapTimes Timestamp.settled a

end Dated

instance : Dated @Campaign where
  metadata := Campaign.metadata
  body := Campaign.body
  mapTimes f c := { c with metadata := c.metadata.mapTimes f, status := c.status.mapTimes f }
  times c := c.metadata.times ++ c.status.times

instance : Dated @WorkUnit where
  metadata := WorkUnit.metadata
  body := WorkUnit.body
  mapTimes f u := { u with metadata := u.metadata.mapTimes f, status := u.status.mapTimes f }
  times u := u.metadata.times ++ u.status.times

instance : Dated @Execution where
  metadata := Execution.metadata
  body := Execution.body
  mapTimes f e := { e with metadata := e.metadata.mapTimes f, status := e.status.mapTimes f }
  times e := e.metadata.times ++ e.status.times

instance : Dated @ConfigDocument where
  metadata := ConfigDocument.metadata
  body := ConfigDocument.body
  mapTimes f d := { d with metadata := d.metadata.mapTimes f }
  times d := d.metadata.times

/-- A family of which a store has the objects with instants. -/
class LawfulDated (F : Type → Type) [Dated F] [Resource (F Instant)] : Prop
    extends WholeResource (F Instant) where
  metadata_eq (a : F Instant) : Dated.metadata a = Resource.metadata a
  body_eq (a : F Instant) : Dated.body a = Resource.body a
  metadata_mapTimes {τ υ : Type} (f : τ → υ) (a : F τ) :
    Dated.metadata (Dated.mapTimes f a) = (Dated.metadata a).mapTimes f
  body_settled (a : F Timestamp) : Dated.body (Dated.settled a) = Dated.body a
  settled_iff (a : F Timestamp) :
    Dated.mapTimes Instant.toTimestamp (Dated.settled a) = a ↔
      Timestamp.AllClear (Dated.times a)

instance : LawfulDated @Campaign where
  metadata_eq _ := rfl
  body_eq _ := rfl
  metadata_mapTimes _ _ := rfl
  body_settled c := by
    simp only [Dated.body, Dated.settled, Dated.mapTimes, Campaign.body,
      Campaign.Status.toJson_settled]
  settled_iff c := by
    cases c
    simp only [Dated.mapTimes, Dated.settled, Dated.times, Campaign.mk.injEq, true_and,
      Metadata.settled_iff, Campaign.Status.settled_iff, Timestamp.allClear_append]

instance : LawfulDated @WorkUnit where
  metadata_eq _ := rfl
  body_eq _ := rfl
  metadata_mapTimes _ _ := rfl
  body_settled u := by
    simp only [Dated.body, Dated.settled, Dated.mapTimes, WorkUnit.body,
      WorkUnit.Status.toJson_settled]
  settled_iff u := by
    cases u
    simp only [Dated.mapTimes, Dated.settled, Dated.times, WorkUnit.mk.injEq, true_and,
      Metadata.settled_iff, WorkUnit.Status.settled_iff, Timestamp.allClear_append]

instance : LawfulDated @Execution where
  metadata_eq _ := rfl
  body_eq _ := rfl
  metadata_mapTimes _ _ := rfl
  body_settled e := by
    simp only [Dated.body, Dated.settled, Dated.mapTimes, Execution.body, Execution.workToJson,
      Execution.Status.toJson_settled]
  settled_iff e := by
    cases e
    simp only [Dated.mapTimes, Dated.settled, Dated.times, Execution.mk.injEq, true_and,
      Metadata.settled_iff, Execution.Status.settled_iff, Timestamp.allClear_append]

instance : LawfulDated @ConfigDocument where
  metadata_eq _ := rfl
  body_eq _ := rfl
  metadata_mapTimes _ _ := rfl
  body_settled _ := rfl
  settled_iff d := by
    cases d
    simp only [Dated.mapTimes, Dated.settled, Dated.times, ConfigDocument.mk.injEq, and_true,
      Metadata.settled_iff]

/-! ## The round trip -/

namespace Dated

section
variable {F : Type → Type} [Dated F] [Resource (F Instant)]

/-- The trip of an object into a store, where it becomes this object, and back. -/
structure RoundTrip (ofJson? : Json → Option (F Instant)) (a : F Timestamp) (object : Object) :
    Prop where
  encode?_eq : encode? a = some object
  body_metadata : Keyed.find? "metadata" object.body = none
  /-- The metadata are those of the object itself if their times are clear. -/
  metadata_iff : object.metadata.mapTimes Instant.toTimestamp = metadata a ↔
    Timestamp.AllClear (metadata a).times
  /-- What is decoded is the object with its times settled. -/
  decode?_eq : ofJson? object.toJson = some (settled a)
  decode_eq : (Resource.decode object : Except StoreError (F Instant)) = .ok (settled a)
  /-- It is the object itself if its times are clear. -/
  returned_iff : mapTimes Instant.toTimestamp (settled a) = a ↔ Timestamp.AllClear (times a)
  /-- What has been decoded is encoded in the same way again. -/
  again : encode? (settled a) = some object
  encode_eq : Resource.encode (settled a) = object

variable [LawfulDated F]

theorem metadata_settled (a : F Timestamp) :
    Resource.metadata (settled a) = (metadata a).mapTimes Timestamp.settled := by
  rw [← LawfulDated.metadata_eq, settled, LawfulDated.metadata_mapTimes]

theorem toJson_eq (a : F Instant) : toJson a = Resource.toJson a := by
  rw [toJson, Resource.toJson, LawfulDated.metadata_eq, LawfulDated.body_eq]

/-- Settling the times does not change what is written. -/
theorem toJson_settled (a : F Timestamp) : toJson (settled a) = toJson a := by
  rw [toJson, toJson, LawfulDated.body_settled, settled, LawfulDated.metadata_mapTimes,
    Metadata.toJson_settled]

theorem roundTrip {a : F Timestamp} (h : (metadata a).IsWide) {ofJson? : Json → Option (F Instant)}
    {names : List String} (hof : ofJson? = Resource.ofJson? names) :
    RoundTrip ofJson? a (Resource.encode (settled a)) := by
  have hwide : (Resource.metadata (settled a)).IsWide := by
    rw [metadata_settled]
    exact { uid := h.uid, owner := h.owner }
  have htrip := Resource.roundTrip hwide hof
  have hagain : encode? (settled a) = some (Resource.encode (settled a)) := by
    rw [encode?, toJson_eq, htrip.split]
  exact {
    encode?_eq := by rw [← hagain, encode?, encode?, toJson_settled]
    body_metadata := htrip.body_metadata
    metadata_iff := by rw [htrip.metadata_eq, metadata_settled, Metadata.settled_iff]
    decode?_eq := htrip.joined
    decode_eq := htrip.decode_eq
    returned_iff := LawfulDated.settled_iff a
    again := hagain
    encode_eq := rfl }

end

/-- **Objects with any timestamps come back from a store with their times settled.** So they lose
nothing, whatever else they hold, exactly if their times are clear. -/
theorem round_trips :
    (∀ c : Campaign Timestamp, c.metadata.IsWide →
      ∃ object, RoundTrip (F := @Campaign) Campaign.ofJson? c object) ∧
    (∀ u : WorkUnit Timestamp, u.metadata.IsWide →
      ∃ object, RoundTrip (F := @WorkUnit) WorkUnit.ofJson? u object) ∧
    (∀ e : Execution Timestamp, e.metadata.IsWide →
      ∃ object, RoundTrip (F := @Execution) Execution.ofJson? e object) ∧
    ∀ d : ConfigDocument Timestamp, d.metadata.IsWide →
      ∃ object, RoundTrip (F := @ConfigDocument) ConfigDocument.ofJson? d object :=
  ⟨fun _ h => ⟨_, roundTrip h rfl⟩, fun _ h => ⟨_, roundTrip h rfl⟩,
    fun _ h => ⟨_, roundTrip h rfl⟩, fun _ h => ⟨_, roundTrip h rfl⟩⟩

/-- An execution with an owner, a finalizer, a time in a leap second, a time before the year 0 and
a template that holds `null` and a number that is not whole. -/
def sampleExecution : Execution Timestamp where
  metadata :=
    { key := { space := "maint", name := "nightly-batch-0" }
      uid := some ⟨16 ^ 32 - 1⟩
      version := 7
      labels := [("shoal.dev/campaign", "nightly")]
      owner := some { kind := "WorkUnit", name := "nightly-batch-0", uid := .issued 1 }
      finalizers := ["hold"]
      createdAt := some { second := 1483228799, nano := 1_500_000_000 }
      deletedAt := some { second := Timestamp.firstSecond, nano := 1 } }
  spec :=
    { template := .object [("cpu", .number (.binary ⟨true, 0, -1074⟩)), ("image", .null)]
      workerIndex := 0xffffffffffffffff
      configDocument := "nightly-batches"
      env := [("A", "\"")]
      ttlSecondsAfterFinished := some (-1) }
  status := { active := 0xffffffff }

theorem round_trips_sample :
    sampleExecution.metadata.IsWide ∧ Timestamp.AllClear (times (F := @Execution) sampleExecution) ∧
      ∃ object, encode? (F := @Execution) sampleExecution = some object ∧
        ∃ e : Execution, Execution.ofJson? object.toJson = some e ∧
          mapTimes Instant.toTimestamp e = sampleExecution := by
  have hwide : sampleExecution.metadata.IsWide :=
    { uid := by rintro uid ⟨⟩; show 16 ^ 32 - 1 < 16 ^ 32; decide
      owner := by rintro owner ⟨⟩; show (Uid.issued 1).value < 16 ^ 32; decide }
  have hclear : Timestamp.AllClear (times (F := @Execution) sampleExecution) := by decide
  obtain ⟨object, htrip⟩ := round_trips.2.2.1 sampleExecution hwide
  exact ⟨hwide, hclear, object, htrip.encode?_eq, _, htrip.decode?_eq,
    htrip.returned_iff.2 hclear⟩

/-- A work unit that ended in a leap second half a minute after noon. -/
def sampleUnit : WorkUnit Timestamp where
  metadata := { key := { space := "maint", name := "nightly-batch-0" } }
  spec :=
    { campaign := "nightly", repositories := ["a"], batchIndex := 0, priority := 0
      configDocument := "nightly-batches" }
  status :=
    { phase := .succeeded
      completionTime := some { second := 1704110430, nano := 1_500_000_000 } }

/-- It comes back as one that ended a second later, in no leap second. -/
theorem leap_second_moved :
    ¬ ∀ u : WorkUnit Timestamp, u.metadata.IsWide →
      ∀ object, encode? (F := @WorkUnit) u = some object →
        ∃ u' : WorkUnit, WorkUnit.ofJson? object.toJson = some u' ∧
          mapTimes Instant.toTimestamp u' = u := by
  intro hall
  have hwide : sampleUnit.metadata.IsWide := { uid := nofun, owner := nofun }
  have htrip := roundTrip (F := @WorkUnit) hwide (rfl : WorkUnit.ofJson? = _)
  obtain ⟨u', hu', hreturned⟩ := hall sampleUnit hwide _ htrip.encode?_eq
  rw [htrip.decode?_eq] at hu'
  cases hu'
  exact absurd (htrip.returned_iff.1 hreturned) (by decide)

end Dated
end CampaignControl
