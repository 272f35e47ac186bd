import CampaignControl.Json.Record

/-!
# Scheduling policies

How the repositories of a campaign are cut into batches, how many batches may be worked on at a
time, and how long their records are kept.
-/

namespace CampaignControl

/-- How a list of repositories is cut into batches. -/
inductive Strategy where
  /-- A single batch with everything. -/
  | none
  /-- A given number of batches. -/
  | fixedBatchCount
  /-- Batches of a given size. -/
  | fixedBatchSize
  deriving DecidableEq, Repr, Inhabited

namespace Strategy

def name : Strategy → String
  | none => "none"
  | fixedBatchCount => "fixed-batch-count"
  | fixedBatchSize => "fixed-batch-size"

instance : ToString Strategy := ⟨name⟩

def ofName? (name : String) : Option Strategy :=
  [none, fixedBatchCount, fixedBatchSize].find? (·.name == name)

def ofJson? (j : Json) : Option Strategy := j.toCase?.bind ofName?

end Strategy

structure SchedulingPolicy where
  strategy : Strategy := .none
  /-- The size or the number of batches, by the strategy. -/
  batchSize : Int64 := 0
  /-- How many work units may be pending or running at a time. -/
  parallelism : Nat := 1
  /-- How many seconds an execution is kept after it has finished. -/
  retentionSeconds : Option Int64 := none
  deriving DecidableEq, Repr, Inhabited

namespace SchedulingPolicy

def toJson (p : SchedulingPolicy) : Json :=
  .object [("batchSize", Json.ofInt64 p.batchSize), ("parallelism", Json.ofNat p.parallelism),
    ("retentionSeconds", Json.ofOption Json.ofInt64 p.retentionSeconds),
    ("strategy", .string p.strategy.name)]

def ofJson? (j : Json) : Option SchedulingPolicy := do
  let fields ← j.fields? ["strategy", "batchSize", "parallelism", "retentionSeconds"]
  let strategy ← Json.optional fields "strategy" Strategy.ofJson? .none
  let batchSize ← Json.optional fields "batchSize" Json.toInt64? 0
  let parallelism ← Json.optional fields "parallelism" Json.toNat? 1
  let retentionSeconds ←
    Json.optional fields "retentionSeconds" (Json.toOption? Json.toInt64?) none
  some { strategy, batchSize, parallelism, retentionSeconds }

end SchedulingPolicy
end CampaignControl
