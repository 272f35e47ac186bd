import CampaignControl.Admission.Pass
import CampaignControl.Lifecycle.Pass
import CampaignControl.Proofs.Concurrency.Script

/-!
# The controller at work

The passes of the controller as jobs (`Controller.repertoire`), and what is requested of the store
by others than its passes (`Controller.IsOutside`): campaigns are created and changed by their
users, executions are reported on by the substrate, and anything may be deleted by anybody. Work
units are created and changed by passes only, and so are executions created.
-/

namespace CampaignControl
namespace Controller

/-- A pass over a target, with any settings and at any time. -/
inductive Job where
  | admission (settings : Settings) (key : Key) (now : Instant)
  | lifecycle (settings : Settings) (key : Key) (now : Instant)

def repertoire : Repertoire where
  Job := Job
  Result _ := Except Error Action
  program
    | .admission settings key now => Admission.reconcile settings key now
    | .lifecycle settings key now => Lifecycle.reconcile settings key now

/-- Whether a job is an admission pass over the campaign at a key. -/
def Job.Admits (key : Key) : Job → Prop
  | .admission _ key' _ => key' = key
  | .lifecycle .. => False

/-- Whether a job is a lifecycle pass over the work unit at a key. -/
def Job.Follows (key : Key) : Job → Prop
  | .admission .. => False
  | .lifecycle _ key' _ => key' = key

/-- Whether a request may come from outside. Executions have no finalizers, and a report on one
does not give it any. -/
def IsOutside : StoreRequest → Prop
  | .get .. | .list .. | .delete .. => True
  | .create kind _ => kind = .campaign ∨ kind = .configDocument
  | .update kind object =>
    kind = .campaign ∨ kind = .configDocument ∨
      (kind = .execution ∧ object.metadata.finalizers = [])

instance (key : Key) : (job : Job) → Decidable (job.Admits key)
  | .admission _ key' _ => inferInstanceAs (Decidable (key' = key))
  | .lifecycle .. => inferInstanceAs (Decidable False)

instance (key : Key) : (job : Job) → Decidable (job.Follows key)
  | .admission .. => inferInstanceAs (Decidable False)
  | .lifecycle _ key' _ => inferInstanceAs (Decidable (key' = key))

instance : DecidablePred IsOutside
  | .get .. | .list .. | .delete .. => inferInstanceAs (Decidable True)
  | .create kind _ => inferInstanceAs (Decidable (kind = .campaign ∨ kind = .configDocument))
  | .update kind object => inferInstanceAs (Decidable (kind = .campaign ∨
      kind = .configDocument ∨ (kind = .execution ∧ object.metadata.finalizers = [])))

/-- What holds after every request from outside. -/
theorem IsOutside.serve {r : StoreRequest} {s : Store} {P : Store → Prop} (hr : IsOutside r)
    (hsame : P s) (hdeletions : ∀ {s' : Store}, s.Deletions s' → P s')
    (hnew : ∀ {slot : Slot} {object : Object} (now : Instant),
      slot.kind = .campaign ∨ slot.kind = .configDocument → s.find? slot = none →
      object.key = slot.key → P (s.withNew now slot object))
    (hrevised : ∀ {slot : Slot} {old object : Object} {s' : Store},
      slot.kind = .campaign ∨ slot.kind = .configDocument ∨
        (slot.kind = .execution ∧ object.metadata.finalizers = []) →
      s.find? slot = some old → object.key = slot.key →
      (s.withRevised slot old object).Deletions s' → P s') (now : Instant) :
    P (s.serve now r).2 := by
  cases r with
  | get | list => exact hsame
  | create kind object =>
    show P (s.create now kind object).2
    rcases Store.create_cases now kind object s with h | ⟨hnone, h⟩
    · rw [h]; exact hsame
    · rw [h]; exact @hnew { kind, key := object.key } object now hr hnone rfl
  | update kind object =>
    show P (s.update now kind object).2
    rcases Store.update_cases now kind object s with h | ⟨old, hold, hdel⟩
    · rw [h]; exact hsame
    · exact @hrevised { kind, key := object.key } old object _ hr hold rfl hdel
  | delete kind key propagation => exact hdeletions (Store.delete_deletions ..)

/-! ## A short run -/

/-- A campaign that has one work unit at a time. -/
def sampleCampaign : Campaign where
  metadata := { key := { space := "fleet", name := "sweep" } }
  spec := { policy := { strategy := .fixedBatchCount, batchSize := 2, parallelism := 1 } }

/-- The key of its first work unit. -/
def sampleKey : Key := { space := "fleet", name := "sweep-batch-0" }

/-- So many requests of a task are answered without faults. -/
def answers (index count : Nat) (repositories : List String) : List (Turn repertoire) :=
  List.replicate count (.answer index .epoch {} repositories)

/-- The campaign is created, and the pass over it creates a work unit. Before the pass is over, a
pass over the work unit is started, which loses the first writing to a conflict. -/
def sampleStart : List (Turn repertoire) :=
  .outside .epoch (.create .campaign (Resource.encode sampleCampaign)) ::
    .start (.admission {} sampleCampaign.key .epoch) ::
    (answers 0 8 ["first", "second"] ++
      .start (.lifecycle {} sampleKey .epoch) :: (answers 1 3 [] ++
        .answer 1 .epoch { conflicts := [(.workUnit, 1)] } [] ::
          (answers 0 3 [] ++ answers 1 8 [])))

/-- The report that the execution of the work unit has completed. -/
def sampleReport : Execution where
  metadata :=
    { key := sampleKey
      version := 6
      owner := some { kind := "WorkUnit", name := "sweep-batch-0", uid := .issued 3 } }
  spec := { workerIndex := 0, configDocument := "sweep-batches", repositories := ["first"] }
  status := { completionTime := some .epoch }

/-- The execution is reported to have completed, and a pass over the work unit follows. -/
def sampleEnd : List (Turn repertoire) :=
  .outside .epoch (.update .execution (Resource.encode sampleReport)) ::
    .start (.lifecycle {} sampleKey .epoch) :: answers 2 8 []

end Controller
end CampaignControl
