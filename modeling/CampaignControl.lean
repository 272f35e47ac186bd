import CampaignControl.Admission.Pass
import CampaignControl.Admission.Plan
import CampaignControl.Binary64
import CampaignControl.Binary64.Shortest
import CampaignControl.Bus
import CampaignControl.Campaign
import CampaignControl.CommandLine
import CampaignControl.CommandLine.Directory
import CampaignControl.Condition
import CampaignControl.ConfigDocument
import CampaignControl.Dispatch
import CampaignControl.Error
import CampaignControl.Event
import CampaignControl.Execution
import CampaignControl.Json.Basic
import CampaignControl.Json.Literal
import CampaignControl.Json.Reader
import CampaignControl.Json.Record
import CampaignControl.Json.Writer
import CampaignControl.Key
import CampaignControl.Keyed
import CampaignControl.Lifecycle.Observation
import CampaignControl.Lifecycle.Pass
import CampaignControl.Main
import CampaignControl.Metadata
import CampaignControl.Metrics
import CampaignControl.Naming
import CampaignControl.Object
import CampaignControl.Object.Kinds
import CampaignControl.Partition
import CampaignControl.Pass
import CampaignControl.Policy.Requeue
import CampaignControl.Policy.Retention
import CampaignControl.Policy.Scheduling
import CampaignControl.Program
import CampaignControl.Proofs.Admission.Alignment
import CampaignControl.Proofs.Admission.Attempts
import CampaignControl.Proofs.Admission.Ceiling
import CampaignControl.Proofs.Admission.Confluence
import CampaignControl.Proofs.Admission.Delivery
import CampaignControl.Proofs.Admission.Duplicates
import CampaignControl.Proofs.Admission.Growth
import CampaignControl.Proofs.Admission.Isolation
import CampaignControl.Proofs.Admission.Notices
import CampaignControl.Proofs.Admission.Offers
import CampaignControl.Proofs.Admission.Order
import CampaignControl.Proofs.Admission.Outline
import CampaignControl.Proofs.Admission.Readmission
import CampaignControl.Proofs.Admission.Recovery
import CampaignControl.Proofs.Admission.Rejection
import CampaignControl.Proofs.Admission.Removal
import CampaignControl.Proofs.Admission.Repetition
import CampaignControl.Proofs.Admission.Requests
import CampaignControl.Proofs.Admission.Selection
import CampaignControl.Proofs.Admission.Twins
import CampaignControl.Proofs.Admission.Validity
import CampaignControl.Proofs.CommandLine.ExitStatus
import CampaignControl.Proofs.Concurrency.Completion
import CampaignControl.Proofs.Concurrency.Contract
import CampaignControl.Proofs.Concurrency.Creations
import CampaignControl.Proofs.Concurrency.Ensures
import CampaignControl.Proofs.Concurrency.History
import CampaignControl.Proofs.Concurrency.Lone
import CampaignControl.Proofs.Concurrency.Modify
import CampaignControl.Proofs.Concurrency.Publications
import CampaignControl.Proofs.Concurrency.Requests
import CampaignControl.Proofs.Concurrency.Terms
import CampaignControl.Proofs.Condition.History
import CampaignControl.Proofs.Controller
import CampaignControl.Proofs.Fleet
import CampaignControl.Proofs.Fleet.Announcements
import CampaignControl.Proofs.Fleet.Drain
import CampaignControl.Proofs.Fleet.IdempotencyKeys
import CampaignControl.Proofs.Fleet.Notices
import CampaignControl.Proofs.Fleet.Origin
import CampaignControl.Proofs.Fleet.PhaseEvents
import CampaignControl.Proofs.Fleet.Reasons
import CampaignControl.Proofs.Fleet.Regular
import CampaignControl.Proofs.Fleet.Rounds
import CampaignControl.Proofs.Fleet.Sites
import CampaignControl.Proofs.Fleet.Suspension
import CampaignControl.Proofs.Fleet.Teardown
import CampaignControl.Proofs.Fleet.Visits
import CampaignControl.Proofs.Lifecycle.Bond
import CampaignControl.Proofs.Lifecycle.Custody
import CampaignControl.Proofs.Lifecycle.Durations
import CampaignControl.Proofs.Lifecycle.Histories
import CampaignControl.Proofs.Lifecycle.Notices
import CampaignControl.Proofs.Lifecycle.Observation
import CampaignControl.Proofs.Lifecycle.Outline
import CampaignControl.Proofs.Lifecycle.Phases
import CampaignControl.Proofs.Lifecycle.Requests
import CampaignControl.Proofs.Lifecycle.Retention
import CampaignControl.Proofs.Lifecycle.Runs
import CampaignControl.Proofs.Lifecycle.Solo
import CampaignControl.Proofs.Lifecycle.Visit
import CampaignControl.Proofs.Partition.Balance
import CampaignControl.Proofs.Rehearsal.ConflictBudget
import CampaignControl.Proofs.Resource.Codec
import CampaignControl.Proofs.Resource.RoundTrip
import CampaignControl.Proofs.Resource.Whole
import CampaignControl.Proofs.Revisits
import CampaignControl.Proofs.Store.Cascade
import CampaignControl.Proofs.Store.Edit
import CampaignControl.Proofs.Store.Outcome
import CampaignControl.Proofs.Store.Propagation
import CampaignControl.Proofs.Store.Sound
import CampaignControl.Proofs.Streaks
import CampaignControl.Proofs.Time.Calendar
import CampaignControl.Proofs.Time.InstantText
import CampaignControl.Proofs.Time.Reading
import CampaignControl.Proofs.WorkQueue.Order
import CampaignControl.Rehearsal.Changes
import CampaignControl.Rehearsal.Faults
import CampaignControl.Rehearsal.Notation
import CampaignControl.Rehearsal.Race
import CampaignControl.Rehearsal.Round
import CampaignControl.Rehearsal.Script
import CampaignControl.Rehearsal.Stage
import CampaignControl.Rehearsal.Substrate
import CampaignControl.Settings
import CampaignControl.Store
import CampaignControl.Store.Request
import CampaignControl.Streaks
import CampaignControl.Supervisor
import CampaignControl.Supervisor.Clock
import CampaignControl.Supervisor.Task
import CampaignControl.Target
import CampaignControl.Time.Calendar
import CampaignControl.Time.Instant
import CampaignControl.Time.Rfc3339
import CampaignControl.Uid
import CampaignControl.WorkQueue
import CampaignControl.WorkUnit
