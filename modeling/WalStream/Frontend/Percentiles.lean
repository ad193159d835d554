/-
The latency percentiles, `extractHistogramPercentiles`, on well-formed histograms.

The buckets of a histogram have a number for a bound, except the last: its bound is written
`+Inf`, and `parseFloat` knows only `Infinity`. A rank that falls in a bucket with a number
is interpolated, and the estimates there are ordered and lie above the lower bounds of their
buckets. A rank above the last of these counts falls in the bucket `+Inf`, whose range is not
a number, and the percentile is set to the bucket's bound, which is not a number either. The
snapshot turns that into 0.
-/
import WalStream.Frontend.Metrics
import WalStream.Lib.Quantile

set_option autoImplicit false

namespace WalStream.Frontend

open Lib

/-! ## Histograms

What the exporter writes: bounds that rise to `+Inf`, and counts that do not fall. The list of
metrics may have anything else between the buckets. -/

/-- Where the first bucket begins. -/
def origin : Bucket ℚ := { bound := 0, count := 0 }

/-- A well-formed cumulative histogram of one series among the metrics. -/
structure Histogram (metrics : List ParsedMetric) (metricName : String) where
  /-- The buckets before the last. -/
  bounded : List ParsedMetric
  last : ParsedMetric
  /-- The bounds of `bounded` as they are written, and the counts. -/
  rows : List (Numeral × ℚ)
  total : ℚ
  series : (metrics.filter fun m => m.name = metricName ++ "_bucket") = bounded ++ [last]
  bounded_eq : bounded.map (fun m => (m.labels.get? "le", m.value)) =
    rows.map fun row => (some (String.ofList row.1.text), .finite row.2)
  last_le : last.labels.get? "le" = some "+Inf"
  last_value : last.value = .finite total
  total_eq : (metrics.find? fun m => m.name = metricName ++ "_count").map ParsedMetric.value =
    some (.finite total)
  rising : (origin :: rows.map fun row => { bound := row.1.value, count := row.2 }).IsChain
    Bucket.Below
  le_total : ∀ row ∈ rows, row.2 ≤ total
  total_pos : 0 < total

namespace Histogram

variable {metrics : List ParsedMetric} {metricName : String}

/-- The buckets before the last, as numbers. -/
def buckets (h : Histogram metrics metricName) : List (Bucket ℚ) :=
  h.rows.map fun row => { bound := row.1.value, count := row.2 }

/-- How many observations lie in the buckets before the last. -/
def measured (h : Histogram metrics metricName) : ℚ := topCount origin h.buckets

/-- The lower bound of the bucket in which a rank falls. -/
def floor (h : Histogram metrics metricName) (rank : ℚ) : ℚ := lowerBound rank origin h.buckets

end Histogram

/-- Both percentiles have a value; the values are ordered, and each is at least the lower
bound of the bucket in which its rank falls. -/
def Bracketed {metrics : List ParsedMetric} {metricName : String}
    (h : Histogram metrics metricName) (result : Dict ℚ Number) (p q : ℚ) : Prop :=
  ∃ x y, result.get? (p * 100) = some (.finite x) ∧ result.get? (q * 100) = some (.finite y) ∧
    x ≤ y ∧ h.floor (h.total * p) ≤ x ∧ h.floor (h.total * q) ≤ y

/-- The percentiles of a metric that a snapshot shows. -/
inductive Shown (data : MetricsResponse) (snapshot : MetricsSnapshot) :
    List ParsedMetric → String → Number → Number → Number → Prop
  | ingestor : Shown data snapshot data.ingestor "walstream_ingest_latency_seconds"
      snapshot.ingestorLatencyP50 snapshot.ingestorLatencyP90 snapshot.ingestorLatencyP99
  | replayer : Shown data snapshot data.replayer "walstream_replay_latency_seconds"
      snapshot.replayerLatencyP50 snapshot.replayerLatencyP90 snapshot.replayerLatencyP99

/-! ## The buckets

The parser reads all bounds but the last, in order, so sorting them changes nothing; and the
last one is not a number to it. -/

theorem parseBound_numeral (n : Numeral) :
    parseBound (some (String.ofList n.text)) = .finite n.value := by
  have hne : String.ofList n.text ≠ "" := by
    intro heq
    obtain ⟨c, rest, htext, -⟩ := n.numeric_unsigned
    have hnil := congrArg String.toList heq
    rw [String.toList_ofList, Numeral.text, htext] at hnil
    simp at hnil
  rw [parseBound, if_neg hne, String.toList_ofList, parseFloat_text]

/-- `parseFloat('+Inf')`. -/
theorem parseBound_inf : parseBound (some "+Inf") = .nan := by decide

variable {metrics : List ParsedMetric} {metricName : String} (h : Histogram metrics metricName)

theorem bucketBound_last : bucketBound h.last = .nan := by
  rw [bucketBound, h.last_le, parseBound_inf]

/-- Bounds and counts of the buckets before the last. -/
theorem bounds_bounded :
    h.bounded.map (fun m => (bucketBound m, m.value)) =
      h.buckets.map fun b => (Number.finite b.bound, Number.finite b.count) := by
  calc h.bounded.map (fun m => (bucketBound m, m.value))
      = (h.bounded.map fun m => (m.labels.get? "le", m.value)).map
          fun e => (parseBound e.1, e.2) := by rw [List.map_map]; rfl
    _ = h.buckets.map fun b => (Number.finite b.bound, Number.finite b.count) := by
        rw [h.bounded_eq, Histogram.buckets, List.map_map, List.map_map]
        apply List.map_congr_left
        intro row _
        exact Prod.ext (parseBound_numeral row.1) rfl

theorem pairwise_buckets : h.buckets.Pairwise fun b b' => b.bound < b'.bound := by
  have hchain : (origin :: h.buckets).IsChain fun b b' => b.bound < b'.bound :=
    h.rising.imp fun _ _ hbelow => hbelow.1
  exact (List.pairwise_cons.mp hchain.pairwise).2

theorem pairwise_notBehind :
    (h.bounded ++ [h.last]).Pairwise fun a b => notBehind a b = true := by
  have hbounds : h.bounded.map bucketBound = h.buckets.map fun b => Number.finite b.bound := by
    have hfst := congrArg (List.map Prod.fst) (bounds_bounded h)
    rwa [List.map_map, List.map_map] at hfst
  rw [List.pairwise_append]
  refine ⟨?_, List.pairwise_singleton _ _, ?_⟩
  · have hpairwise : (h.bounded.map bucketBound).Pairwise
        fun x y => (!(Number.finite 0).lt (x - y)) = true := by
      rw [hbounds, List.pairwise_map]
      apply (pairwise_buckets h).imp
      intro b b' hlt
      simp only [Number.finite_sub, Number.finite_lt, Bool.not_eq_true', decide_eq_false_iff_not]
      linarith
    exact List.pairwise_map.mp hpairwise
  · -- the comparison with a bound that is none is no number
    intro a _ b hb
    obtain rfl := List.mem_singleton.mp hb
    rw [notBehind, bucketBound_last, Number.sub_nan]
    rfl

/-- Buckets that are listed in order are sorted. -/
theorem bucketMetrics_eq : bucketMetrics metrics metricName = h.bounded ++ [h.last] := by
  rw [bucketMetrics, h.series]
  exact (pairwise_notBehind h).insertionSort_eq

theorem totalCount_eq : totalCount metrics metricName = .finite h.total := by
  have htotal := h.total_eq
  unfold totalCount
  split
  · rename_i m hm
    rw [hm] at htotal
    rw [Option.some.inj htotal]
    rfl
  · rename_i hm
    rw [hm] at htotal
    cases htotal

/-! ## An estimate

The loop finds the first bucket whose count reaches the rank. Before the last bucket that is the
quantile of `Lib.Quantile`; in the last one every number it computes with is lost. -/

/-- The bucket in which a rank falls decides its estimate: a quantile before the last
bucket, and not a number in it. -/
theorem estimate_eq {bounded : List ParsedMetric} {last : ParsedMetric} {b : Bucket ℚ}
    {bs : List (Bucket ℚ)} {rank total : ℚ}
    (hbounded : bounded.map (fun m => (bucketBound m, m.value)) =
      bs.map fun b => (Number.finite b.bound, Number.finite b.count))
    (hlast : bucketBound last = .nan) (hvalue : last.value = .finite total)
    (hrising : (b :: bs).IsChain Bucket.Below) (hrank : b.count < rank) (htotal : rank ≤ total) :
    estimate (.finite rank) (.finite b.bound) (.finite b.count) (bounded ++ [last]) =
      some (((quantile rank b bs).map Number.finite).getD .nan) := by
  induction bs generalizing b bounded with
  | nil =>
      obtain rfl := List.map_eq_nil_iff.mp hbounded
      simp [estimate, hlast, hvalue, htotal, quantile, Number.isFinite]
  | cons b' bs ih =>
      obtain ⟨m, bounded, rfl⟩ : ∃ m ms, bounded = m :: ms := by
        cases bounded with
        | nil => cases hbounded
        | cons m ms => exact ⟨m, ms, rfl⟩
      rw [List.isChain_cons_cons] at hrising
      simp only [List.map_cons, List.cons.injEq, Prod.mk.injEq] at hbounded
      obtain ⟨⟨hbound, hcount⟩, hrest⟩ := hbounded
      rw [List.cons_append]
      unfold estimate quantile
      simp only [hbound, hcount, Number.finite_le]
      by_cases hle : rank ≤ b'.count
      · have hpos : 0 < b'.count - b.count := by linarith
        simp [hle, hpos, Number.finite_div _ (ne_of_gt hpos), interpolate]
      · simp only [hle, decide_false, Bool.false_eq_true, if_false]
        exact ih hrest hrising.2 (not_le.mp hle)

/-! ## The percentiles

The order of two percentiles is that of their ranks, as long as the greater rank is reached
before the last bucket. When it is not, there is no value to be compared. -/

variable {percentiles : List ℚ} {p q : ℚ}

/-- The rank of a percentile is positive, and at most the total. -/
theorem rank_bounds (h0 : 0 < p) (h1 : p < 1) : 0 < h.total * p ∧ h.total * p ≤ h.total := by
  have hpos := mul_pos h.total_pos h0
  have hle := mul_le_mul_of_nonneg_left (le_of_lt h1) (le_of_lt h.total_pos)
  exact ⟨hpos, by linarith⟩

/-- The percentile of `p` is the quantile of its rank, if it has one, and else not a
number. -/
theorem get?_percentiles (hp : p ∈ percentiles) (h0 : 0 < p) (h1 : p < 1) :
    (extractHistogramPercentiles metrics metricName percentiles).get? (p * 100) =
      some (((quantile (h.total * p) origin h.buckets).map Number.finite).getD .nan) := by
  have hnonempty : ¬ (Number.finite h.total = .finite 0 ∨ h.bounded ++ [h.last] = []) := by
    rintro (hzero | hnil)
    · have htotal : h.total = 0 := Number.finite.inj hzero
      exact absurd htotal (ne_of_gt h.total_pos)
    · simp at hnil
  have hinj : Function.Injective fun percentile : ℚ => percentile * 100 := by
    intro x y hxy
    dsimp only at hxy
    linarith
  obtain ⟨hpos, hle⟩ := rank_bounds h h0 h1
  have hestimate := estimate_eq (bounds_bounded h) (bucketBound_last h) h.last_value h.rising
    hpos hle
  unfold extractHistogramPercentiles
  simp only [bucketMetrics_eq h, totalCount_eq h, if_neg hnonempty]
  exact Dict.get?_foldl_setSome
    (f := fun percentile => estimate (.finite h.total * .finite percentile) (.finite 0)
      (.finite 0) (h.bounded ++ [h.last])) hinj hestimate (Or.inl hp)

/-- The percentiles are values, ordered and above the lower bounds of their
buckets, exactly when the greater rank is reached before the last bucket. -/
theorem bracketed_iff (hp : p ∈ percentiles) (hq : q ∈ percentiles) (h0 : 0 < p) (hpq : p ≤ q)
    (h1 : q < 1) :
    Bracketed h (extractHistogramPercentiles metrics metricName percentiles) p q ↔
      h.total * q ≤ h.measured := by
  have hle : h.total * p ≤ h.total * q :=
    mul_le_mul_of_nonneg_left hpq (le_of_lt h.total_pos)
  have hfirst := (rank_bounds h h0 (lt_of_le_of_lt hpq h1)).1
  have hsecond := (rank_bounds h (lt_of_lt_of_le h0 hpq) h1).1
  have hnone : ∀ {rank : ℚ}, 0 < rank →
      (quantile rank origin h.buckets = none ↔ h.measured < rank) :=
    fun hrank => quantile_eq_none_iff h.rising hrank
  unfold Bracketed
  rw [get?_percentiles h hp h0 (lt_of_le_of_lt hpq h1),
    get?_percentiles h hq (lt_of_lt_of_le h0 hpq) h1]
  constructor
  · rintro ⟨x, y, -, hy, -⟩
    by_contra hlt
    rw [(hnone hsecond).mpr (not_le.mp hlt)] at hy
    cases hy
  · intro hmeasured
    obtain ⟨x, hx⟩ := Option.ne_none_iff_exists'.mp
      (mt (hnone hfirst).mp (not_lt.mpr (le_trans hle hmeasured)))
    obtain ⟨y, hy⟩ := Option.ne_none_iff_exists'.mp
      (mt (hnone hsecond).mp (not_lt.mpr hmeasured))
    refine ⟨x, y, by rw [hx]; rfl, by rw [hy]; rfl, ?_, ?_, ?_⟩
    · exact quantile_mono h.rising hfirst hle hx hy
    · exact le_of_lt (lowerBound_lt_quantile h.rising hfirst hx)
    · exact le_of_lt (lowerBound_lt_quantile h.rising hsecond hy)

/-! ## What is shown

The snapshot shows 0 where there is no value, which puts the missing value of a greater
percentile below the values of smaller ones. -/

/-- What a snapshot shows for a percentile: the quantile, or 0. -/
theorem latencyOrZero_percentiles (hp : p ∈ percentiles) (h0 : 0 < p) (h1 : p < 1) :
    latencyOrZero (extractHistogramPercentiles metrics metricName percentiles) (p * 100) =
      .finite ((quantile (h.total * p) origin h.buckets).getD 0) := by
  unfold latencyOrZero
  rw [get?_percentiles h hp h0 h1]
  cases quantile (h.total * p) origin h.buckets with
  | none => rfl
  | some x => rfl

/-- Quantiles that are or are not there, with 0 for the ones that are not: they are in order
exactly when the last is there or the first is not. -/
theorem shown_values_iff {rank rank' rank'' : ℚ} (h0 : 0 < rank) (hle : rank ≤ rank')
    (hle' : rank' ≤ rank'') :
    ((quantile rank origin h.buckets).getD 0 ≤ (quantile rank' origin h.buckets).getD 0 ∧
      (quantile rank' origin h.buckets).getD 0 ≤ (quantile rank'' origin h.buckets).getD 0) ↔
      rank'' ≤ h.measured ∨ h.measured < rank := by
  have hnone : ∀ {r : ℚ}, rank ≤ r → (quantile r origin h.buckets = none ↔ h.measured < r) :=
    fun hr => quantile_eq_none_iff h.rising (lt_of_lt_of_le h0 hr)
  have hsome : ∀ {r : ℚ}, rank ≤ r → r ≤ h.measured →
      ∃ x, quantile r origin h.buckets = some x := by
    intro r hr hmeasured
    exact Option.ne_none_iff_exists'.mp (mt (hnone hr).mp (not_lt.mpr hmeasured))
  constructor
  · intro hshown
    by_contra hnot
    rw [not_or, not_le, not_lt] at hnot
    -- the first is positive, and the last is shown as 0
    obtain ⟨x, hx⟩ := hsome (le_refl _) hnot.2
    have hpos : 0 < x :=
      lt_of_le_of_lt (bound_le_lowerBound h.rising) (lowerBound_lt_quantile h.rising h0 hx)
    have hlast := (hnone (le_trans hle hle')).mpr hnot.1
    rw [hx, hlast] at hshown
    have hzero := le_trans hshown.1 hshown.2
    exact absurd hpos (not_lt.mpr hzero)
  · rintro (hlast | hfirst)
    · obtain ⟨x, hx⟩ := hsome (le_refl _) (le_trans hle (le_trans hle' hlast))
      obtain ⟨y, hy⟩ := hsome hle (le_trans hle' hlast)
      obtain ⟨z, hz⟩ := hsome (le_trans hle hle') hlast
      rw [hx, hy, hz]
      exact ⟨quantile_mono h.rising h0 hle hx hy,
        quantile_mono h.rising (lt_of_lt_of_le h0 hle) hle' hy hz⟩
    · rw [(hnone (le_refl _)).mpr hfirst, (hnone hle).mpr (lt_of_lt_of_le hfirst hle),
        (hnone (le_trans hle hle')).mpr (lt_of_lt_of_le hfirst (le_trans hle hle'))]
      exact ⟨le_refl _, le_refl _⟩

/-- The three values a snapshot shows are non-decreasing exactly when all of them are
quantiles or none is. -/
theorem shown_iff {refs : MetricsRefs} {data : MetricsResponse} {now : ℤ} {p50 p90 p99 : Number}
    (hshown : Shown data (newSnapshot refs data now) metrics metricName p50 p90 p99) :
    (p50.le p90 = true ∧ p90.le p99 = true) ↔
      h.total * (99 / 100) ≤ h.measured ∨ h.measured < h.total * (1 / 2) := by
  have hpos := h.total_pos
  have hvalue : ∀ p ∈ defaultPercentiles, 0 < p → p < 1 →
      latencyOrZero (extractHistogramPercentiles metrics metricName defaultPercentiles)
        (p * 100) = .finite ((quantile (h.total * p) origin h.buckets).getD 0) :=
    fun p hp h0 h1 => latencyOrZero_percentiles h hp h0 h1
  have h50 := hvalue (1 / 2) (by simp [defaultPercentiles]) (by norm_num) (by norm_num)
  have h90 := hvalue (9 / 10) (by simp [defaultPercentiles]) (by norm_num) (by norm_num)
  have h99 := hvalue (99 / 100) (by simp [defaultPercentiles]) (by norm_num) (by norm_num)
  rw [show (1 / 2 : ℚ) * 100 = 50 by norm_num] at h50
  rw [show (9 / 10 : ℚ) * 100 = 90 by norm_num] at h90
  rw [show (99 / 100 : ℚ) * 100 = 99 by norm_num] at h99
  rw [← shown_values_iff h (by linarith)
    (show h.total * (1 / 2) ≤ h.total * (9 / 10) by linarith) (by linarith)]
  cases hshown with
  | ingestor =>
      simp only [newSnapshot, h50, h90, h99, Number.finite_le, decide_eq_true_eq]
  | replayer =>
      simp only [newSnapshot, h50, h90, h99, Number.finite_le, decide_eq_true_eq]

/-! ## Latency percentiles -/

/-- A metric of the ingestor's latencies. -/
def latencyMetric (suffix : String) (labels : List (String × String)) (value : ℚ) :
    ParsedMetric :=
  { name := "walstream_ingest_latency_seconds" ++ suffix, labels := Dict.ofPairs labels,
    value := .finite value, help := "", type := "histogram" }

/-- Six of ten observations up to 0.1, and the others above. -/
def latencies : List ParsedMetric :=
  [latencyMetric "_bucket" [("le", "0.1")] 6, latencyMetric "_bucket" [("le", "+Inf")] 10,
    latencyMetric "_count" [] 10]

def latencyHistogram : Histogram latencies "walstream_ingest_latency_seconds" where
  bounded := [latencyMetric "_bucket" [("le", "0.1")] 6]
  last := latencyMetric "_bucket" [("le", "+Inf")] 10
  rows := [({ sign := none, whole := ['0'], fraction := some ['1'], exponent := none,
              isDigit_whole := rfl, isDigit_fraction := rfl, ne_nil := by decide }, 6)]
  total := 10
  series := by decide +kernel
  bounded_eq := by decide +kernel
  last_le := by decide +kernel
  last_value := rfl
  total_eq := by decide +kernel
  rising := by decide +kernel
  le_total := by decide +kernel
  total_pos := by decide +kernel

/-- The ninetieth percentile of these latencies is no value, and the snapshot shows less for
it than for the fiftieth. -/
theorem percentiles_fail :
    (¬ ∀ (metrics : List ParsedMetric) (metricName : String) (h : Histogram metrics metricName)
      (percentiles : List ℚ) (p q : ℚ), p ∈ percentiles → q ∈ percentiles → 0 < p → p ≤ q →
        q < 1 → Bracketed h (extractHistogramPercentiles metrics metricName percentiles) p q) ∧
    ¬ ∀ (metrics : List ParsedMetric) (metricName : String) (_ : Histogram metrics metricName)
      (refs : MetricsRefs) (data : MetricsResponse) (now : ℤ) (snapshot : MetricsSnapshot)
      (p50 p90 p99 : Number), (useMetricsSnapshot refs (some data) now).1 = some snapshot →
        Shown data snapshot metrics metricName p50 p90 p99 →
        p50.le p90 = true ∧ p90.le p99 = true := by
  have hmeasured : latencyHistogram.measured = 6 := rfl
  have htotal : latencyHistogram.total = 10 := rfl
  constructor
  · intro hall
    have hbracketed := hall latencies _ latencyHistogram defaultPercentiles (1 / 2) (9 / 10)
      (by simp [defaultPercentiles]) (by simp [defaultPercentiles]) (by norm_num) (by norm_num)
      (by norm_num)
    rw [bracketed_iff latencyHistogram (by simp [defaultPercentiles])
      (by simp [defaultPercentiles]) (by norm_num) (by norm_num) (by norm_num), hmeasured,
      htotal] at hbracketed
    norm_num at hbracketed
  · intro hall
    let data : MetricsResponse :=
      { timestamp := "", ingestor := latencies, control := [], replayer := [], errors := [] }
    let refs : MetricsRefs := { previousRef := none, historyRef := [] }
    have hshows : Shown data (newSnapshot refs data 0) latencies _ _ _ _ := .ingestor
    have hordered := hall latencies _ latencyHistogram refs data 0 _ _ _ _ rfl hshows
    rw [shown_iff latencyHistogram hshows, hmeasured, htotal] at hordered
    norm_num at hordered

/-- **Latency percentiles.** In a well-formed histogram the percentiles of `p` and `q` are
values, in order and above the lower bounds of their buckets, exactly when a bucket with a
bound reaches the rank of `q`; and the three that are shown of it are non-decreasing exactly
when such a bucket reaches the rank of the ninety-ninth, or none reaches that of the
fiftieth. -/
theorem percentiles_iff {metrics : List ParsedMetric} {metricName : String}
    (h : Histogram metrics metricName) {percentiles : List ℚ} {p q : ℚ} (hp : p ∈ percentiles)
    (hq : q ∈ percentiles) (h0 : 0 < p) (hpq : p ≤ q) (h1 : q < 1) :
    (Bracketed h (extractHistogramPercentiles metrics metricName percentiles) p q ↔
      h.total * q ≤ h.measured) ∧
    ∀ (refs : MetricsRefs) (data : MetricsResponse) (now : ℤ) (snapshot : MetricsSnapshot)
      (p50 p90 p99 : Number), (useMetricsSnapshot refs (some data) now).1 = some snapshot →
        Shown data snapshot metrics metricName p50 p90 p99 →
        ((p50.le p90 = true ∧ p90.le p99 = true) ↔
          h.total * (99 / 100) ≤ h.measured ∨ h.measured < h.total * (1 / 2)) := by
  refine ⟨bracketed_iff h hp hq h0 hpq h1, ?_⟩
  intro refs data now snapshot p50 p90 p99 hsnapshot hshown
  obtain rfl := Option.some.inj hsnapshot
  exact shown_iff h hshown

/-- Sixty of a hundred observations up to 0.1, and all but one up to 0.5. -/
def quickLatencies : List ParsedMetric :=
  [latencyMetric "_bucket" [("le", "0.1")] 60, latencyMetric "_bucket" [("le", "0.5")] 99,
    latencyMetric "_bucket" [("le", "+Inf")] 100, latencyMetric "_count" [] 100]

def quickHistogram : Histogram quickLatencies "walstream_ingest_latency_seconds" where
  bounded := [latencyMetric "_bucket" [("le", "0.1")] 60,
    latencyMetric "_bucket" [("le", "0.5")] 99]
  last := latencyMetric "_bucket" [("le", "+Inf")] 100
  rows := [({ sign := none, whole := ['0'], fraction := some ['1'], exponent := none,
              isDigit_whole := rfl, isDigit_fraction := rfl, ne_nil := by decide }, 60),
    ({ sign := none, whole := ['0'], fraction := some ['5'], exponent := none,
       isDigit_whole := rfl, isDigit_fraction := rfl, ne_nil := by decide }, 99)]
  total := 100
  series := by decide +kernel
  bounded_eq := by decide +kernel
  last_le := by decide +kernel
  last_value := rfl
  total_eq := by decide +kernel
  rising := by decide +kernel
  le_total := by decide +kernel
  total_pos := by decide +kernel

/-- The fiftieth of these percentiles falls in the first bucket and the ninety-ninth in the
second, and the three that are shown are in order. -/
theorem percentiles_quick :
    Bracketed quickHistogram (extractHistogramPercentiles quickLatencies
      "walstream_ingest_latency_seconds" defaultPercentiles) (1 / 2) (99 / 100) ∧
    ∀ (refs : MetricsRefs) (data : MetricsResponse) (now : ℤ) (snapshot : MetricsSnapshot)
      (p50 p90 p99 : Number), (useMetricsSnapshot refs (some data) now).1 = some snapshot →
        Shown data snapshot quickLatencies "walstream_ingest_latency_seconds" p50 p90 p99 →
        p50.le p90 = true ∧ p90.le p99 = true := by
  have h50 : (1 / 2 : ℚ) ∈ defaultPercentiles := by simp [defaultPercentiles]
  have h99 : (99 / 100 : ℚ) ∈ defaultPercentiles := by simp [defaultPercentiles]
  obtain ⟨hbracketed, hshown⟩ := percentiles_iff quickHistogram h50 h99 (by norm_num)
    (by norm_num) (by norm_num)
  rw [show quickHistogram.measured = 99 from rfl, show quickHistogram.total = 100 from rfl]
    at hbracketed hshown
  refine ⟨hbracketed.mpr (by norm_num), ?_⟩
  intro refs data now snapshot p50 p90 p99 hsnapshot hshow
  exact (hshown refs data now snapshot p50 p90 p99 hsnapshot hshow).mpr (by norm_num)

end WalStream.Frontend
