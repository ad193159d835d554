/-
What the dashboard computes from the metrics it scrapes: the helpers of
`prometheus-parser.ts` and the snapshot of `useMetrics.ts`.

The snapshot is computed once for every response. What it keeps from one response to the
next, for the rates and the charts, are two refs. The response arrives as JSON, which has
`null` for a number that is not finite; wherever these functions calculate or compare,
`null` counts as zero.

A percentile is stored under `p` and its hundredfold; here the hundredfold is the key. The
comparison function of the sort, which is stable, is not a number for a bound that is none,
and counts as zero there.
-/
import WalStream.Frontend.Prometheus
import Mathlib.Data.List.Sort

set_option autoImplicit false

namespace WalStream.Frontend

open Lib

/-! ## `prometheus-parser.ts` -/

/-- `parseFloat(le || '0')`. -/
def parseBound : Option String → Number
  | some le => if le = "" then parseFloat ['0'] else parseFloat le.toList
  | none => parseFloat ['0']

/-- `parseFloat(bucket.labels.le || '0')`. -/
def bucketBound (bucket : ParsedMetric) : Number := parseBound (bucket.labels.get? "le")

/-- The comparison function of the sort does not put `a` behind `b`. -/
def notBehind (a b : ParsedMetric) : Bool :=
  !(Number.finite 0).lt (bucketBound a - bucketBound b)

def bucketMetrics (metrics : List ParsedMetric) (metricName : String) : List ParsedMetric :=
  (metrics.filter fun m => m.name = metricName ++ "_bucket").insertionSort
    fun a b => notBehind a b = true

/-- `countMetric?.value || 0`. -/
def totalCount (metrics : List ParsedMetric) (metricName : String) : Number :=
  match metrics.find? fun m => m.name = metricName ++ "_count" with
  | some m => m.value.orZero
  | none => .finite 0

/-- The inner loop, with `previousBucket.le` and `previousBucket.count`. -/
def estimate (targetCount : Number) : Number → Number → List ParsedMetric → Option Number
  | _, _, [] => none
  | previousLe, previousCount, bucket :: buckets =>
      let le := bucketBound bucket
      let count := bucket.value
      if targetCount.le count then
        let bucketCount := count - previousCount
        let bucketRange := le - previousLe
        let countInBucket := targetCount - previousCount
        if (Number.finite 0).lt bucketCount && bucketRange.isFinite then
          let fraction := countInBucket / bucketCount
          some (previousLe + fraction * bucketRange)
        else some le
      else estimate targetCount le count buckets

def extractHistogramPercentiles (metrics : List ParsedMetric) (metricName : String)
    (percentiles : List ℚ) : Dict ℚ Number :=
  let buckets := bucketMetrics metrics metricName
  let total := totalCount metrics metricName
  if total = .finite 0 ∨ buckets = [] then
    Dict.ofPairs (percentiles.map fun percentile => (percentile * 100, .finite 0))
  else
    percentiles.foldl (fun result percentile =>
      result.setSome (percentile * 100)
        (estimate (total * .finite percentile) (.finite 0) (.finite 0) buckets)) Dict.empty

/-- The default of `percentiles`. -/
def defaultPercentiles : List ℚ := [1 / 2, 9 / 10, 99 / 100]

/-- `getMetricValue`, without labels. -/
def getMetricValue (metrics : List ParsedMetric) (name : String) : Option Number :=
  (metrics.find? fun m => m.name = name).map ParsedMetric.value

/-- The value to assign for a metric, under the value of its label. -/
def labelled (name labelKey : String) (m : ParsedMetric) : Option (String × Number) :=
  if m.name = name then
    (m.labels.get? labelKey).bind fun label => if label = "" then none else some (label, m.value)
  else none

def getMetricsByLabel (metrics : List ParsedMetric) (name labelKey : String) :
    Dict String Number :=
  assignAll (metrics.filterMap (labelled name labelKey))

def computeRate (currentValue previousValue intervalMs : Number) : Number :=
  if intervalMs.le (.finite 0) then .finite 0
  else
    let delta := currentValue - previousValue
    if delta.lt (.finite 0) then .finite 0 else delta / intervalMs * .finite 1000

/-! ## `useMetrics.ts` -/

structure MetricsResponse where
  timestamp : String
  ingestor : List ParsedMetric
  control : List ParsedMetric
  replayer : List ParsedMetric
  errors : List String

structure MetricsSnapshot where
  eventsIngested : Number
  eventsIngestedByOperation : Dict String Number
  ingestorLatencyP50 : Number
  ingestorLatencyP90 : Number
  ingestorLatencyP99 : Number
  activeJobs : Number
  totalJobsCreated : Number
  eventsReplayed : Number
  eventsDuplicate : Number
  eventsFailed : Number
  replayerLatencyP50 : Number
  replayerLatencyP90 : Number
  replayerLatencyP99 : Number
  redisStreamLength : Number
  ingestRate : Number
  replayRate : Number
  errors : List String
  timestamp : String

structure MetricsHistory where
  timestamp : ℤ
  eventsIngested : Number
  eventsReplayed : Number

def MAX_HISTORY : Nat := 60

/-- The two refs of the hook. -/
structure MetricsRefs where
  previousRef : Option (ℤ × MetricsSnapshot)
  historyRef : List MetricsHistory

/-- `getMetricValue(metrics, name) || 0`. -/
def valueOrZero (metrics : List ParsedMetric) (name : String) : Number :=
  match getMetricValue metrics name with
  | some value => value.orZero
  | none => .finite 0

/-- `latency.p50 || 0` for the key 50. -/
def latencyOrZero (latency : Dict ℚ Number) (key : ℚ) : Number :=
  match latency.get? key with
  | some value => value.orZero
  | none => .finite 0

/-- `Object.values(record).reduce((sum, value) => sum + value, 0)`. -/
def sumOfValues (record : Dict String Number) : Number :=
  record.values.foldl (fun sum value => sum + value) (.finite 0)

/-- A rate, when there is a snapshot before. -/
def rateSince (previousRef : Option (ℤ × MetricsSnapshot)) (now : ℤ)
    (before : MetricsSnapshot → Number) (current : Number) : Number :=
  match previousRef with
  | some (timestamp, snapshot) =>
      computeRate current (before snapshot) (.finite (now - timestamp : ℤ))
  | none => .finite 0

/-- The snapshot of a response. -/
def newSnapshot (refs : MetricsRefs) (data : MetricsResponse) (now : ℤ) : MetricsSnapshot :=
  let allMetrics := data.ingestor ++ data.control ++ data.replayer
  let eventsIngested := valueOrZero data.ingestor "walstream_events_ingested_total"
  let eventsReplayed := valueOrZero data.replayer "walstream_events_replayed_total"
  let jobsByState := getMetricsByLabel data.control "walstream_jobs_active" "state"
  let ingestorLatency := extractHistogramPercentiles data.ingestor
    "walstream_ingest_latency_seconds" defaultPercentiles
  let replayerLatency := extractHistogramPercentiles data.replayer
    "walstream_replay_latency_seconds" defaultPercentiles
  { eventsIngested := eventsIngested,
    eventsIngestedByOperation :=
      getMetricsByLabel data.ingestor "walstream_events_ingested_total" "operation",
    ingestorLatencyP50 := latencyOrZero ingestorLatency 50,
    ingestorLatencyP90 := latencyOrZero ingestorLatency 90,
    ingestorLatencyP99 := latencyOrZero ingestorLatency 99,
    activeJobs := sumOfValues jobsByState,
    totalJobsCreated := valueOrZero data.control "walstream_jobs_created_total",
    eventsReplayed := eventsReplayed,
    eventsDuplicate := valueOrZero data.replayer "walstream_events_duplicates_total",
    eventsFailed := valueOrZero data.replayer "walstream_events_failed_total",
    replayerLatencyP50 := latencyOrZero replayerLatency 50,
    replayerLatencyP90 := latencyOrZero replayerLatency 90,
    replayerLatencyP99 := latencyOrZero replayerLatency 99,
    redisStreamLength := valueOrZero allMetrics "walstream_redis_stream_length",
    ingestRate := rateSince refs.previousRef now MetricsSnapshot.eventsIngested eventsIngested,
    replayRate := rateSince refs.previousRef now MetricsSnapshot.eventsReplayed eventsReplayed,
    errors := data.errors,
    timestamp := data.timestamp }

/-- `useMetricsSnapshot`: the snapshot of the response, if there is one, and the refs. -/
def useMetricsSnapshot (refs : MetricsRefs) (data : Option MetricsResponse) (now : ℤ) :
    Option MetricsSnapshot × MetricsRefs :=
  match data with
  | none => (none, refs)
  | some data =>
      let snapshot := newSnapshot refs data now
      let history := refs.historyRef ++ [{
        timestamp := now,
        eventsIngested := snapshot.eventsIngested,
        eventsReplayed := snapshot.eventsReplayed }]
      -- `slice(-MAX_HISTORY)`
      (some snapshot,
        { previousRef := some (now, snapshot),
          historyRef := history.drop (history.length - MAX_HISTORY) })

end WalStream.Frontend
