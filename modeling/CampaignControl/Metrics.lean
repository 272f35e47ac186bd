import CampaignControl.Binary64.Shortest
import CampaignControl.WorkUnit

/-!
# Metrics

What a pass counts is a `Measurement`. Metrics are the measurements of all passes added up, and
their exposition is a text: families in the order of their names, and in each the samples in the
order of the values of their labels.
-/

namespace CampaignControl

inductive Measurement where
  /-- A work unit of the campaign has been created. -/
  | admitted (campaign : Key)
  /-- The campaign has so many live work units. -/
  | active (campaign : Key) (count : Nat)
  /-- A work unit of the campaign has come to a terminal phase, this long after its start. -/
  | completed (campaign : Key) (phase : WorkUnit.Phase) (duration : Option Span)
  /-- A pass over an object of this kind has failed. -/
  | failed (kind : Kind) (severity : String)
  deriving DecidableEq, Repr, Inhabited

/-- How often durations fell below each bound. -/
structure Histogram where
  /-- For each bound the number of durations up to it and beyond the one before. -/
  buckets : List Nat
  /-- The sum of the durations in seconds. -/
  sum : Binary64
  count : Nat
  deriving DecidableEq, Repr, Inhabited

namespace Histogram

/-- The bounds in seconds. -/
def bounds : List Nat := (List.range 16).map (Nat.pow 2)

def empty : Histogram := { buckets := bounds.map fun _ => 0, sum := .zero, count := 0 }

/-- Milliseconds as a number of seconds. -/
def seconds (milliseconds : Int) : Binary64 :=
  let whole (n : Int) := Binary64.round (decide (n < 0)) n.natAbs 1
  ((do (← whole milliseconds).div (← whole 1000)) : Option Binary64).getD .zero

/-- Counts a duration in the first bucket that it fits into. -/
def fill (milliseconds : Int) : List Nat → List Nat → List Nat
  | bound :: bounds, n :: ns =>
    if milliseconds ≤ 1000 * bound then (n + 1) :: ns else n :: fill milliseconds bounds ns
  | _, ns => ns

def observe (milliseconds : Int) (h : Histogram) : Histogram :=
  { buckets := fill milliseconds bounds h.buckets
    sum := (h.sum.add (seconds milliseconds)).getD h.sum
    count := h.count + 1 }

end Histogram

/-- Samples by the values of their labels. -/
abbrev Samples (ν : Type) := List (List String × ν)

structure Metrics where
  /-- By campaign. -/
  admitted : Samples Nat := []
  /-- By campaign. -/
  active : Samples Nat := []
  /-- By campaign and phase. -/
  completed : Samples Nat := []
  /-- By severity and kind. -/
  failures : Samples Nat := []
  /-- By phase. -/
  durations : Samples Histogram := []
  deriving DecidableEq, Repr, Inhabited

namespace Metrics

/-- Adds one to a sample. -/
def increment (labels : List String) (samples : Samples Nat) : Samples Nat :=
  Keyed.insert labels ((Keyed.find? labels samples).getD 0 + 1) samples

/-- Adds a measurement. -/
def record (m : Metrics) : Measurement → Metrics
  | .admitted campaign => { m with admitted := increment [campaign.text] m.admitted }
  | .active campaign count => { m with active := Keyed.insert [campaign.text] count m.active }
  | .completed campaign phase duration =>
    let m := { m with completed := increment [campaign.text, phase.name] m.completed }
    match duration with
    | none => m
    | some d =>
      let old := (Keyed.find? [phase.name] m.durations).getD .empty
      { m with durations := Keyed.insert [phase.name] (old.observe d.milliseconds) m.durations }
  | .failed kind severity => { m with failures := increment [severity, kind.name] m.failures }

/-! ## Exposition -/

/-- A label's value with backslashes, quotes and line feeds escaped. -/
def escaped (s : String) : String :=
  String.ofList <| s.toList.flatMap fun
    | '\\' => ['\\', '\\']
    | '"' => ['\\', '"']
    | '\n' => ['\\', 'n']
    | c => [c]

/-- Numbers are written without an exponent, and whole ones without a point. -/
def layout : Binary64.Layout := { positional := fun _ => true, wholeEnd := false }

/-- Labels with their values. -/
def labelsText (names values : List String) : String :=
  let pairs := names.zipWith (fun name value => name ++ "=\"" ++ escaped value ++ "\"") values
  "\x7b" ++ ",".intercalate pairs ++ "\x7d"

/-- The two lines in front of the samples of a family. -/
def heading (name help type : String) : List String :=
  ["# HELP " ++ name ++ " " ++ help, "# TYPE " ++ name ++ " " ++ type]

/-- A family of plain numbers, unless it is empty. -/
def family (name help type : String) (labels : List String) (samples : Samples Nat) :
    List String :=
  if samples.isEmpty then []
  else
    heading name help type ++
      samples.map fun (values, n) => name ++ labelsText labels values ++ " " ++ toString n

/-- The lines of a histogram: how many durations there are up to each bound and in all, and
their sum. -/
def histogramLines (name : String) (labels values : List String) (h : Histogram) :
    List String :=
  let upTo (n : Nat) : Nat := (h.buckets.take n).foldl (· + ·) 0
  let bucket (bound : String) (n : Nat) : String :=
    name ++ "_bucket" ++ labelsText (labels ++ ["le"]) (values ++ [bound]) ++ " " ++ toString n
  (Histogram.bounds.zipIdx.map fun (bound, i) => bucket (toString bound) (upTo (i + 1))) ++
    [bucket "+Inf" h.count,
      name ++ "_sum" ++ labelsText labels values ++ " " ++ String.ofList (h.sum.text layout),
      name ++ "_count" ++ labelsText labels values ++ " " ++ toString h.count]

/-- A family of histograms, unless it is empty. -/
def histogramFamily (name help : String) (labels : List String) (samples : Samples Histogram) :
    List String :=
  if samples.isEmpty then []
  else
    heading name help "histogram" ++
      samples.flatMap fun (values, h) => histogramLines name labels values h

/-- The text of all metrics in lines. -/
def lines (m : Metrics) : List String :=
  family "shoal_active_work_units" "Current number of pending or running work units" "gauge"
      ["campaign"] m.active ++
    family "shoal_reconcile_errors_total" "Total number of failed reconcile passes" "counter"
      ["kind", "target"] m.failures ++
    histogramFamily "shoal_work_unit_duration_seconds"
      "Work unit start-to-completion duration in seconds" ["phase"] m.durations ++
    family "shoal_work_units_admitted_total" "Total number of work units admitted" "counter"
      ["campaign"] m.admitted ++
    family "shoal_work_units_completed_total"
      "Total number of work units that reached a terminal phase" "counter"
      ["campaign", "phase"] m.completed

end Metrics
end CampaignControl
