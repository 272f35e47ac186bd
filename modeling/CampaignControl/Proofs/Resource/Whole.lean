import CampaignControl.Proofs.Resource.Codec
import CampaignControl.Proofs.Resource.Identity

/-!
# Objects as a whole in JSON

An object of a store is split off from the JSON of a resource and joined to it again, and neither
loses anything (`Resource.RoundTrip`): the metadata is read back from its own field, in which
empty lists and a missing owner are left out (`Metadata.ofJson?_toJson`), and the contents do not
look into that field (`WholeResource`). This holds for all four types of objects, whatever strings,
free documents, numbers and instants they hold.
-/

namespace CampaignControl

/-! ## Metadata -/

theorem Json.toUid?_ofUid {uid : Uid} (h : uid.IsWide) :
    Json.toUid? (Json.ofUid uid) = some uid := by
  simp [Json.toUid?, Json.ofUid, Uid.read?_text h]

theorem Owner.ofJson?_toJson {owner : Owner} (h : owner.uid.IsWide) :
    Owner.ofJson? owner.toJson = some owner := by
  simp [Owner.toJson, Owner.ofJson?, Json.required, Json.toUid?_ofUid h]

/-- The identities in the metadata have no more than 128 bits. -/
structure Metadata.IsWide {τ : Type} (m : Metadata τ) : Prop where
  uid : ∀ uid ∈ m.uid, uid.IsWide
  owner : ∀ owner ∈ m.owner, owner.uid.IsWide

theorem Json.toOption?_ofUid {uid : Option Uid} (h : ∀ u ∈ uid, u.IsWide) :
    Json.toOption? Json.toUid? (Json.ofOption Json.ofUid uid) = some uid := by
  cases uid with
  | none => rfl
  | some uid =>
    have hread := Json.toUid?_ofUid (h uid rfl)
    simp only [Json.ofOption]
    rw [Json.ofUid] at hread ⊢
    simp [Json.toOption?, hread]

theorem Json.toOption?_owner {owner : Owner} (h : owner.uid.IsWide) :
    Json.toOption? Owner.ofJson? owner.toJson = some (some owner) := by
  have hread := Owner.ofJson?_toJson h
  rw [Owner.toJson] at hread ⊢
  simp [Json.toOption?, hread]

theorem Metadata.ofJson?_toJson {m : Metadata} (h : m.IsWide) :
    Metadata.ofJson? m.toJson = some m := by
  obtain ⟨⟨space, name⟩, uid, version, labels, owner, finalizers, createdAt, deletedAt⟩ := m
  have huid := Json.toOption?_ofUid h.uid
  have howner : ∀ o ∈ owner, Json.toOption? Owner.ofJson? o.toJson = some (some o) :=
    fun o ho => Json.toOption?_owner (h.owner o ho)
  cases finalizers <;> cases labels <;> cases owner <;>
    simp [toJson, ofJson?, Json.required, Json.optional, huid, howner]

/-! ## Contents -/

/-- A type of objects whose contents and whose metadata are in different fields. -/
class WholeResource (α : Type) [Resource α] : Prop extends LawfulResource α where
  find?_metadata (a : α) : Keyed.find? "metadata" (Resource.body a) = none
  ofBody?_insert (m : Metadata) (j : Json) (fields : List (String × Json)) :
    (Resource.ofBody? m (Keyed.insert "metadata" j fields) : Option α) = Resource.ofBody? m fields

instance : WholeResource Campaign where
  find?_metadata _ := rfl
  ofBody?_insert m j fields := by
    simp [Resource.ofBody?, Json.required, Json.optional, Keyed.find?_insert]

instance : WholeResource WorkUnit where
  find?_metadata _ := rfl
  ofBody?_insert m j fields := by
    simp [Resource.ofBody?, Json.required, Json.optional, Keyed.find?_insert]

instance : WholeResource Execution where
  find?_metadata _ := rfl
  ofBody?_insert m j fields := by
    simp [Resource.ofBody?, Json.required, Keyed.find?_insert]

instance : WholeResource ConfigDocument where
  find?_metadata _ := rfl
  ofBody?_insert m j fields := by
    simp [Resource.ofBody?, Json.optional, Keyed.find?_insert]

namespace Resource

variable {α : Type} [Resource α]

/-- The trip of a resource into an object of a store and back. -/
structure RoundTrip (ofJson? : Json → Option α) (a : α) : Prop where
  /-- The resource in JSON is split into metadata and contents. -/
  split : Object.ofJson? (toJson a) = some (encode a)
  body_metadata : Keyed.find? "metadata" (encode a).body = none
  metadata_eq : (encode a).metadata = metadata a
  /-- Metadata and contents joined in JSON are the resource again. -/
  joined : ofJson? (encode a).toJson = some a
  decode_eq : decode (encode a) = (.ok a : Except StoreError α)

variable [WholeResource α]

theorem required_insert_metadata {m : Metadata} (h : m.IsWide) (fields : List (String × Json)) :
    Json.required (Keyed.insert "metadata" m.toJson fields) "metadata" Metadata.ofJson? =
      some m := by
  simp [Json.required, Keyed.find?_insert, Metadata.ofJson?_toJson h]

theorem ofJson?_toJson {a : α} (h : (metadata a).IsWide) :
    Object.ofJson? (toJson a) = some (encode a) := by
  have herase := Keyed.erase_of_find?_none (WholeResource.find?_metadata a)
  simp only [toJson, Object.ofJson?, Json.toFields?_object, Option.bind_eq_bind, Option.bind_some,
    required_insert_metadata h, Keyed.erase_insert, herase, encode]

theorem ofJson?_encode {a : α} (h : (metadata a).IsWide) (names : List String) :
    Resource.ofJson? names (encode a).toJson = some a := by
  simp only [ofJson?, Object.toJson, encode, Json.fields?_object, Option.bind_eq_bind,
    Option.bind_some, required_insert_metadata h, WholeResource.ofBody?_insert,
    LawfulResource.ofBody?_body, LawfulResource.setMetadata_metadata]

theorem roundTrip {a : α} (h : (metadata a).IsWide) {ofJson? : Json → Option α}
    {names : List String} (hof : ofJson? = Resource.ofJson? names) : RoundTrip ofJson? a where
  split := ofJson?_toJson h
  body_metadata := WholeResource.find?_metadata a
  metadata_eq := rfl
  joined := by rw [hof, ofJson?_encode h]
  decode_eq := decode_encode a

end Resource
end CampaignControl
