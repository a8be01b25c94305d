import ConfigMerge.Number.Notation
import ConfigMerge.Reconcile.Intent

/-!
# Metrics — counters and durations of the reconcile loops

`Metrics` counts what merges did and which errors passes ended with, and collects how long passes
took, each by controller.  `Metrics.text` is the exposition in OpenMetrics text.
-/

namespace ConfigMerge

/-- The distribution of durations in seconds: how many fell into each bucket and above the last. -/
structure Histogram where
  sum : Float
  buckets : List Nat

namespace Histogram

/-- The upper bounds of the buckets: one millisecond, doubled fifteen times. -/
def bounds : List Float :=
  (List.range 16).map (fun i => Float.ofScientific 1 true 3 * (UInt64.ofNat (Nat.pow 2 i)).toFloat)

/-- No durations yet. -/
def empty : Histogram := ⟨0.0, List.replicate (bounds.length + 1) 0⟩

/-- How many durations there were. -/
def count (h : Histogram) : Nat := h.buckets.foldl (· + ·) 0

/-- Counts a value in the first bucket whose bound it does not exceed. -/
def place (seconds : Float) : List Float → List Nat → List Nat
  | bound :: bounds, n :: buckets =>
    if seconds ≤ bound then (n + 1) :: buckets else n :: place seconds bounds buckets
  | [], n :: buckets => (n + 1) :: buckets
  | _, [] => []

/-- Adds a duration. -/
def observe (h : Histogram) (seconds : Float) : Histogram :=
  ⟨h.sum + seconds, place seconds bounds h.buckets⟩

/-- Running totals. -/
def cumulative (total : Nat) : List Nat → List Nat
  | [] => []
  | n :: rest => (total + n) :: cumulative (total + n) rest

end Histogram

/-- Counts by controller and by one more label. -/
abbrev Counter := SortedMap String (SortedMap String Nat)

/-- Adds one to a count. -/
def Counter.increment (c : Counter) (controller label : String) : Counter :=
  let counts := (c.get? controller).getD .empty
  c.insert controller (counts.insert label ((counts.get? label).getD 0 + 1))

/-- All that is measured. -/
structure Metrics where
  durations : SortedMap String Histogram := .empty
  outcomes : Counter := SortedMap.empty
  errors : Counter := SortedMap.empty

namespace Metrics

/-- Measures the duration of a pass. -/
def observeDuration (m : Metrics) (controller : String) (seconds : Float) : Metrics :=
  let h := (m.durations.get? controller).getD .empty
  { m with durations := m.durations.insert controller (h.observe seconds) }

/-- Counts what a merge did. -/
def countOutcome (m : Metrics) (controller outcome : String) : Metrics :=
  { m with outcomes := m.outcomes.increment controller outcome }

/-- Counts an error by its class. -/
def countError (m : Metrics) (controller kind : String) : Metrics :=
  { m with errors := m.errors.increment controller kind }

/-- Measures a pass: its duration and, as one count, the wish for a retry, the outcome of its merge
or its error. -/
def observePass (m : Metrics) (controller : String) (seconds : Float)
    (result : Except Error Report) : Metrics :=
  let m := m.observeDuration controller seconds
  match result with
  | .ok report =>
    if report.needsRetry then m.countOutcome controller "requeue"
    else
      match report.merge with
      | some outcome => m.countOutcome controller outcome.text
      | none => m
  | .error e => m.countError controller e.label

/-! ## Exposition -/

/-- A floating point sample. -/
def floatText (x : Float) : String :=
  let x := Binary64.ofFloat x
  if x.isFinite then String.ofList (x.text .metrics)
  else if x.fraction ≠ 0 then "NaN"
  else if x.isNegative then "-inf"
  else "inf"

/-- A set of labels with their values, in order. -/
def labelText (labels : List (String × String)) : String :=
  "\x7b" ++ ",".intercalate (labels.map (fun l => l.1 ++ "=\"" ++ l.2 ++ "\"")) ++ "\x7d"

/-- The lines that describe a metric. -/
def header (name help type : String) : List String :=
  ["# HELP " ++ name ++ " " ++ help ++ ".", "# TYPE " ++ name ++ " " ++ type]

/-- The samples of a counter. -/
def counterLines (name label : String) (c : Counter) : List String :=
  c.entries.flatMap fun (controller, counts) =>
    counts.entries.map fun (value, n) =>
      name ++ "_total" ++ labelText [("controller", controller), (label, value)] ++ " "
        ++ toString n

/-- The samples of the durations of one controller. -/
def histogramLines (name controller : String) (h : Histogram) : List String :=
  let label := ("controller", controller)
  let bounds := Histogram.bounds.map floatText ++ ["+Inf"]
  (name ++ "_sum" ++ labelText [label] ++ " " ++ floatText h.sum)
    :: (name ++ "_count" ++ labelText [label] ++ " " ++ toString h.count)
    :: (bounds.zip (Histogram.cumulative 0 h.buckets)).map fun (bound, n) =>
      name ++ "_bucket" ++ labelText [("le", bound), label] ++ " " ++ toString n

/-- The lines of the exposition. -/
def lines (m : Metrics) : List String :=
  let duration := "consul_merge_reconcile_duration_seconds"
  let outcomes := "consul_merge_outcomes"
  let errors := "consul_merge_reconcile_errors"
  header duration "Duration of reconcile loops in seconds" "histogram"
    ++ m.durations.entries.flatMap (fun e => histogramLines duration e.1 e.2)
    ++ header outcomes "Composite merge results by outcome" "counter"
    ++ counterLines outcomes "outcome" m.outcomes
    ++ header errors "Total number of reconcile errors" "counter"
    ++ counterLines errors "kind" m.errors
    ++ ["# EOF"]

/-- The exposition. -/
def text (m : Metrics) : String := String.join (m.lines.map (· ++ "\n"))

end Metrics

end ConfigMerge
