import CampaignControl.Campaign
import CampaignControl.ConfigDocument
import CampaignControl.Execution
import CampaignControl.Proofs.Keyed
import CampaignControl.Proofs.Time.InstantText
import CampaignControl.WorkUnit

/-!
# Reading back what has been written

The readers of typed values in JSON invert the writers (`Json.toNat?_ofNat` and its like,
`Key.ofJson?_toJson`, `Condition.ofJson?_toJson`), so each of the four types of objects is read
back from its body. `LawfulResource` states this together with what the metadata has to do with
the body: nothing. A stored object differs from what was encoded in its metadata only, and
`Resource.decode_stored` says what is decoded from it.
-/

namespace CampaignControl

/-! ## Values -/

namespace Json

@[simp] theorem toText?_string (s : String) : toText? (.string s) = some s := rfl

@[simp] theorem toText?_ofText (s : String) : toText? (ofText s) = some s := rfl

@[simp] theorem toBool?_bool (b : Bool) : toBool? (.bool b) = some b := rfl

@[simp] theorem toFields?_object (fields : List (String × Json)) :
    toFields? (.object fields) = some fields := rfl

@[simp] theorem fields?_object (names : List String) (fields : List (String × Json)) :
    Json.fields? names (.object fields) = some fields := rfl

@[simp] theorem toNat?_ofNat (n : Nat) : toNat? (ofNat n) = some n := rfl

@[simp] theorem toInt64?_ofInt64 (n : Int64) : toInt64? (ofInt64 n) = some n := by
  have h1 := n.le_toInt
  have h2 := n.toInt_lt
  simp only [ofInt64, ofInt, toInt64?]
  rw [if_pos ⟨by omega, by omega⟩, Int64.ofInt_toInt]

@[simp] theorem toUInt32?_ofUInt32 (n : UInt32) : toUInt32? (ofUInt32 n) = some n := by
  have h : n.toNat < 0x100000000 := n.toNat_lt
  show (if n.toNat < 0x100000000 then some (UInt32.ofNat n.toNat) else none) = some n
  rw [if_pos h, UInt32.ofNat_toNat]

@[simp] theorem toInstant?_ofInstant (t : Instant) : toInstant? (ofInstant t) = some t := by
  simp [toInstant?, ofInstant, Instant.read?_text]

theorem mapM_map_of_inverse {α β : Type} {read : β → Option α} {write : α → β}
    (h : ∀ a, read (write a) = some a) (items : List α) :
    (items.map write).mapM read = some items := by
  induction items with
  | nil => rfl
  | cons a rest ih => simp [h, ih]

theorem toList?_map {α : Type} {read : Json → Option α} {write : α → Json}
    (h : ∀ a, read (write a) = some a) (items : List α) :
    toList? read (.array (items.map write)) = some items := mapM_map_of_inverse h items

@[simp] theorem toStrings?_ofStrings (items : List String) :
    toStrings? (ofStrings items) = some items := toList?_map toText?_string items

@[simp] theorem toTexts?_ofTexts (entries : List (String × String)) :
    toTexts? (ofTexts entries) = some entries :=
  mapM_map_of_inverse (by simp) entries

theorem toOption?_ofOption {α : Type} {read : Json → Option α} {write : α → Json}
    (h : ∀ a, read (write a) = some a) (hnull : ∀ a, write a ≠ .null) (a : Option α) :
    toOption? read (ofOption write a) = some a := by
  cases a with
  | none => rfl
  | some a =>
    have := hnull a
    simp only [ofOption]
    cases hw : write a with
    | null => exact absurd hw this
    | _ => simp [toOption?, ← hw, h]

@[simp] theorem toOption?_ofInstant (t : Option Instant) :
    toOption? toInstant? (ofOption ofInstant t) = some t :=
  toOption?_ofOption toInstant?_ofInstant (fun _ h => by cases h) t

@[simp] theorem toOption?_ofText (s : Option String) :
    toOption? toText? (ofOption ofText s) = some s := toOption?_ofOption toText?_ofText nofun s

@[simp] theorem toOption?_ofInt64 (n : Option Int64) :
    toOption? toInt64? (ofOption ofInt64 n) = some n :=
  toOption?_ofOption toInt64?_ofInt64 nofun n

end Json

@[simp] theorem Key.ofJson?_toJson (key : Key) : Key.ofJson? key.toJson = some key := by
  simp [Key.toJson, Key.ofJson?, Json.required]

@[simp] theorem Key.toOption?_toJson (key : Option Key) :
    Json.toOption? Key.ofJson? (Json.ofOption Key.toJson key) = some key :=
  Json.toOption?_ofOption Key.ofJson?_toJson nofun key

namespace Condition

@[simp] theorem Status.ofName?_name (s : Status) : Status.ofName? s.name = some s := by
  cases s <;> decide

theorem ofJsonBy?_toJson {toCase? : Json → Option String}
    (h : ∀ s, toCase? (.string s) = some s) (c : Condition) :
    ofJsonBy? toCase? c.toJson = some c := by
  simp [toJson, ofJsonBy?, Json.required, Json.optional, h]

@[simp] theorem toList?_listToJson (conditions : List Condition) :
    Json.toList? ofJson? (listToJson conditions) = some conditions :=
  Json.toList?_map (ofJsonBy?_toJson fun _ => rfl) conditions

@[simp] theorem toList?_listToJson_tagged (conditions : List Condition) :
    Json.toList? (ofJsonBy? Json.toTaggedCase?) (listToJson conditions) = some conditions :=
  Json.toList?_map (ofJsonBy?_toJson fun _ => rfl) conditions

end Condition

/-! ## Resources -/

/-- A type of objects that is read back from its body, whatever metadata the object has. -/
class LawfulResource (α : Type) [Resource α] : Prop where
  metadata_setMetadata (m : Metadata) (a : α) :
    Resource.metadata (Resource.setMetadata m a) = m
  setMetadata_metadata (a : α) : Resource.setMetadata (Resource.metadata a) a = a
  ofBody?_body (m : Metadata) (a : α) :
    Resource.ofBody? m (Resource.body a) = some (Resource.setMetadata m a)
  ofBody?_eq_map (m m' : Metadata) (fields : List (String × Json)) :
    (Resource.ofBody? m' fields : Option α) =
      (Resource.ofBody? m fields).map (Resource.setMetadata m')

namespace Resource

variable {α : Type} [Resource α] [LawfulResource α]

/-- What is decoded from an object with the body of a resource, and any metadata. -/
theorem decode_stored (m : Metadata) (a : α) :
    decode { metadata := m, body := body a } = (.ok (setMetadata m a) : Except StoreError α) := by
  simp only [decode, LawfulResource.ofBody?_body]

theorem decode_encode (a : α) : decode (encode a) = (.ok a : Except StoreError α) := by
  rw [encode, decode_stored, LawfulResource.setMetadata_metadata]

/-- What is decoded from objects with the same body differs in its metadata only. -/
theorem decode_eq_map {o o' : Object} (h : o'.body = o.body) :
    (decode o' : Except StoreError α) = (decode o).map (setMetadata o'.metadata) := by
  unfold decode
  rw [h, LawfulResource.ofBody?_eq_map o.metadata o'.metadata]
  cases (ofBody? o.metadata o.body : Option α) <;> rfl

theorem metadata_of_decode {object : Object} {a : α} (h : decode object = .ok a) :
    metadata a = object.metadata := by
  have hmap : (decode object : Except StoreError α) =
      (decode object).map (setMetadata object.metadata) :=
    decode_eq_map rfl
  rw [h] at hmap
  rw [Except.ok.inj hmap, LawfulResource.metadata_setMetadata]

theorem key_of_decode {object : Object} {a : α} (h : decode object = .ok a) :
    key a = object.key := by rw [key, metadata_of_decode h]; rfl

omit [LawfulResource α] in
theorem eq_ok_of_toOption_decode {object : Object} {a : α}
    (h : (decode object : Except StoreError α).toOption = some a) : decode object = .ok a := by
  cases hdecode : (decode object : Except StoreError α) with
  | error e =>
    rw [hdecode] at h
    cases h
  | ok b =>
    rw [hdecode] at h
    cases h
    rfl

end Resource

/-! ## Work units -/

namespace WorkUnit

@[simp] theorem Phase.ofJson?_name (p : Phase) : Phase.ofJson? (.string p.name) = some p := by
  cases p <;> decide

@[simp] theorem Spec.ofJson?_toJson (s : Spec) : Spec.ofJson? s.toJson = some s := by
  simp [Spec.toJson, Spec.ofJson?, Json.required, Json.optional]

@[simp] theorem Status.ofJson?_toJson (s : Status) : Status.ofJson? s.toJson = some s := by
  simp [Status.toJson, Status.ofJson?, Json.optional]

instance : LawfulResource WorkUnit where
  metadata_setMetadata _ _ := rfl
  setMetadata_metadata _ := rfl
  ofBody?_body m u := by
    simp [Resource.body, body, Resource.ofBody?, Json.required, Json.optional]
    rfl
  ofBody?_eq_map _ _ fields := by
    simp only [Resource.ofBody?, Option.bind_eq_bind, Option.map_bind, Function.comp_def]
    rfl

end WorkUnit

/-! ## Executions -/

namespace Execution

@[simp] theorem Spec.ofJson?_toJson (s : Spec) : Spec.ofJson? s.toJson = some s := by
  simp [Spec.toJson, Spec.ofJson?, Json.required, Json.optional]

@[simp] theorem Status.ofJson?_toJson (s : Status) : Status.ofJson? s.toJson = some s := by
  simp [Status.toJson, Status.ofJson?, Json.optional]

@[simp] theorem workOfJson?_workToJson (spec : Spec) (status : Status) :
    workOfJson? (workToJson spec status) = some (spec, status) := by
  simp [workToJson, workOfJson?, Json.required, Json.optional]

instance : LawfulResource Execution where
  metadata_setMetadata _ _ := rfl
  setMetadata_metadata _ := rfl
  ofBody?_body m e := by
    simp [Resource.body, body, Resource.ofBody?, Json.required]
    rfl
  ofBody?_eq_map _ _ fields := by
    simp only [Resource.ofBody?, Option.bind_eq_bind, Option.map_bind, Function.comp_def]
    rfl

end Execution

/-! ## Campaigns and configuration documents -/

@[simp] theorem Strategy.ofJson?_name (s : Strategy) :
    Strategy.ofJson? (.string s.name) = some s := by
  cases s <;> decide

@[simp] theorem SchedulingPolicy.ofJson?_toJson (p : SchedulingPolicy) :
    SchedulingPolicy.ofJson? p.toJson = some p := by
  simp [SchedulingPolicy.toJson, SchedulingPolicy.ofJson?, Json.optional]

namespace Campaign

@[simp] theorem Spec.ofJson?_toJson (s : Spec) : Spec.ofJson? s.toJson = some s := by
  simp [Spec.toJson, Spec.ofJson?, Json.optional]

@[simp] theorem Status.ofJson?_toJson (s : Status) : Status.ofJson? s.toJson = some s := by
  simp [Status.toJson, Status.ofJson?, Json.optional]

instance : LawfulResource Campaign where
  metadata_setMetadata _ _ := rfl
  setMetadata_metadata _ := rfl
  ofBody?_body m c := by
    simp [Resource.body, body, Resource.ofBody?, Json.required, Json.optional]
    rfl
  ofBody?_eq_map _ _ fields := by
    simp only [Resource.ofBody?, Option.bind_eq_bind, Option.map_bind, Function.comp_def]
    rfl

end Campaign

instance : LawfulResource ConfigDocument where
  metadata_setMetadata _ _ := rfl
  setMetadata_metadata _ := rfl
  ofBody?_body m d := by
    have h : Json.toList? some (.array d.batches) = some d.batches := by
      have := Json.toList?_map (fun _ => rfl : ∀ j : Json, some (id j) = some j) d.batches
      rwa [List.map_id] at this
    simp [Resource.body, ConfigDocument.body, Resource.ofBody?, Json.optional, h]
    rfl
  ofBody?_eq_map _ _ fields := by
    simp only [Resource.ofBody?, Option.bind_eq_bind, Option.map_bind, Function.comp_def]
    rfl

end CampaignControl
