import CampaignControl.ConfigDocument
import CampaignControl.Dispatch
import CampaignControl.Proofs.Json.Reading

/-!
# Documents on their way to a worker

The two documents of a worker reach it as texts. What is merged from the texts is what is merged
from the documents themselves, value or error, in either form of the list of batches; different
documents have different texts, and a text that has been read is rendered as it was
(`Dispatch.texts_carry_documents`). Where the batches are lists of repositories, each of them goes
to the worker with its index (`Dispatch.assigns`).
-/

namespace CampaignControl
namespace Dispatch

/-! ## Batches -/

/-- The worker with this index is given the batch by a document: the base configuration of that,
with the repositories of the batch in their field. -/
def Assigns (d : ConfigDocument) (index : Nat) (batch : Batch) : Prop :=
  ∃ fields, merge (.object d.baseConfig) d.batches index =
      .ok { merged := .object fields, batch := document batch } ∧
    ∀ name, Keyed.find? name fields =
      if name = repositoriesField then some (Json.ofStrings batch)
      else Keyed.find? name d.baseConfig

theorem assigns {d : ConfigDocument} {batches : List Batch} {index : Nat} {batch : Batch}
    (h : d.batches = batches.map document) (hbatch : batches[index]? = some batch) :
    Assigns d index batch := by
  refine ⟨Keyed.insert repositoriesField (Json.ofStrings batch) d.baseConfig, ?_, fun name => ?_⟩
  · rw [merge, h, List.getElem?_map, hbatch]
    rfl
  · rw [Keyed.find?_insert]
    simp only [eq_comm]

/-- There is nothing for an index behind the batches. -/
theorem merge_of_length_le (base : Json) {batches : List Json} {index : Nat}
    (h : batches.length ≤ index) :
    merge base batches index = .error (.indexOutOfBounds index batches.length) := by
  rw [merge, List.getElem?_eq_none h]

theorem itemsAreExact_strings (items : List String) : Json.ItemsAreExact (items.map .string) := by
  induction items with
  | nil => trivial
  | cons item items ih => exact ⟨trivial, ih⟩

theorem itemsAreExact_documents (batches : List Batch) :
    Json.ItemsAreExact (batches.map document) := by
  induction batches with
  | nil => trivial
  | cons batch batches ih => exact ⟨⟨itemsAreExact_strings batch, trivial⟩, ih⟩

/-! ## Texts -/

theorem read_render {j : Json} (h : j.IsPortable) : read (render j) = .ok j := by
  have htext : render j = String.ofList (Json.write (some 0) j ['\n']) := by
    rw [← List.nil_append ['\n'], Json.write_append, String.ofList_append]
    rfl
  rw [read, htext, Json.read_write h (some 0) (by simp [Json.isBlank])]

theorem mergeTexts_render {base list : Json} {batches : List Json} (index : Nat)
    (hbase : base.IsPortable) (hlist : list.IsPortable) (hbatches : batchesOf list = .ok batches) :
    mergeTexts (render base) (render list) index = merge base batches index := by
  simp only [mergeTexts, read_render hbase, read_render hlist, hbatches, bind, Except.bind]

theorem batchesOf_object {fields : List (String × Json)} {batches : List Json}
    (h : Keyed.find? "batches" fields = some (.array batches)) :
    batchesOf (.object fields) = .ok batches := by
  simp only [batchesOf, h]

/-- **Documents survive the trip through text.** What is merged from the texts of portable
documents is what is merged from the documents, whether the batches are a list of their own or a
field beside others; portable documents with the same text are equal, and rendering what has been
read from a text gives the same text. -/
theorem texts_carry_documents :
    (∀ (base : Json) (batches : List Json) (index : Nat), base.IsPortable →
      ((Json.array batches).IsPortable →
        mergeTexts (render base) (render (.array batches)) index = merge base batches index) ∧
      ∀ fields : List (String × Json), (Json.object fields).IsPortable →
        Keyed.find? "batches" fields = some (.array batches) →
        mergeTexts (render base) (render (.object fields)) index = merge base batches index) ∧
    (∀ a b : Json, a.IsPortable → b.IsPortable → render a = render b → a = b) ∧
    ∀ a : Json, a.IsPortable → (read (render a)).map render = .ok (render a) := by
  refine ⟨fun base batches index hbase => ⟨fun hlist => ?_, fun fields hfields hfind => ?_⟩,
    fun a b ha hb heq => ?_, fun a ha => ?_⟩
  · exact mergeTexts_render index hbase hlist rfl
  · exact mergeTexts_render index hbase hfields (batchesOf_object hfind)
  · have := read_render ha
    rw [heq, read_render hb] at this
    exact (Except.ok.inj this).symm
  · rw [read_render ha]
    rfl

/-- So many arrays, each of which is the only item of the one around it. -/
def nested : Nat → Json
  | 0 => .null
  | n + 1 => .array [nested n]

theorem depth_nested (n : Nat) : (nested n).depth = n := by
  induction n with
  | zero => rfl
  | succ n ih => rw [nested, Json.depth, Json.depthItems, ih, Json.depthItems, Nat.max_zero]

theorem canonical_nested (n : Nat) : (nested n).Canonical := by
  induction n with
  | zero => trivial
  | succ n ih => exact ⟨ih, trivial⟩

theorem isExact_nested (n : Nat) : (nested n).IsExact := by
  induction n with
  | zero => trivial
  | succ n ih => exact ⟨ih, trivial⟩

/-- A base configuration with arrays as deep as it may have them, a string that needs escapes and
the least of all exact numbers. -/
def sampleBase : Json :=
  .object [("deep", nested 126), ("note", .string "a \"b\"\\\n\x01é"),
    ("size", .number (.whole (-0x8000000000000000)))]

/-- A batch with the greatest of all exact numbers. -/
def sampleBatch : Json :=
  .object [("repositories", .array [.string "r"]), ("size", .number (.whole 0xffffffffffffffff))]

theorem depth_sampleBase : sampleBase.depth = Json.maxDepth := by
  simp only [sampleBase, Json.depth, Json.depthFields, depth_nested]
  decide

theorem isPortable_sampleBase : sampleBase.IsPortable where
  canonical := by
    refine ⟨?_, canonical_nested 126, trivial, trivial, trivial⟩
    simp only [Keyed.Ascending, List.pairwise_cons]
    decide
  exact := ⟨isExact_nested 126, trivial, by constructor <;> decide, trivial⟩
  depth_le := depth_sampleBase.le

theorem isPortable_sampleBatches : (Json.array [sampleBatch]).IsPortable where
  canonical := by
    refine ⟨⟨?_, ⟨trivial, trivial⟩, trivial, trivial⟩, trivial⟩
    simp only [Keyed.Ascending, List.pairwise_cons]
    decide
  exact := ⟨⟨⟨trivial, trivial⟩, ⟨by decide, by decide⟩, trivial⟩, trivial⟩
  depth_le := by decide

theorem texts_carry_documents_sample :
    sampleBase.IsPortable ∧ sampleBase.depth = Json.maxDepth ∧
      (Json.array [sampleBatch]).IsPortable ∧
      mergeTexts (render sampleBase) (render (.array [sampleBatch])) 0 =
        .ok { merged := .object [("deep", nested 126), ("note", .string "a \"b\"\\\n\x01é"),
                ("repositories", .array [.string "r"]),
                ("size", .number (.whole 0xffffffffffffffff))]
              batch := sampleBatch } ∧
      (read (render sampleBase)).map render = .ok (render sampleBase) :=
  ⟨isPortable_sampleBase, depth_sampleBase, isPortable_sampleBatches,
    ((texts_carry_documents.1 sampleBase [sampleBatch] 0 isPortable_sampleBase).1
      isPortable_sampleBatches).trans rfl,
    texts_carry_documents.2.2 sampleBase isPortable_sampleBase⟩

end Dispatch
end CampaignControl
