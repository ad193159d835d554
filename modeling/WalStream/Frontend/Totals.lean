/-
The totals of the dashboard, and the series they come from.

A counter is exported as one series for every combination of its labels: a table and an
operation, or a type of error. `getMetricValue` returns the first series of the name, so a
total is the count of one series. `getMetricsByLabel` assigns every series of an operation
to the same key, so an operation has the count of its last series. Neither adds anything up,
and the two meet the sums where only the series they read has counted something.

A count is a number and not negative, and every series of the ingested events has an
operation.
-/
import WalStream.Frontend.Metrics
import WalStream.Lib.Sums

set_option autoImplicit false

namespace WalStream.Frontend

open Lib

/-! ## Series

A counter is the list of its series among the metrics, in the order of the response. The totals
ought to be sums over such lists. -/

/-- The series of a counter. -/
def series (metrics : List ParsedMetric) (name : String) : List ParsedMetric :=
  metrics.filter fun m => m.name = name

/-- The series of a counter under one value of a label. -/
def seriesOf (metrics : List ParsedMetric) (name labelKey label : String) :
    List ParsedMetric :=
  (series metrics name).filter fun m => m.labels.get? labelKey = some label

/-- The number of a series. -/
def count (m : ParsedMetric) : ℚ :=
  match m.value with
  | .finite q => q
  | _ => 0

/-- The sum of series. -/
def total (ms : List ParsedMetric) : ℚ := (ms.map count).sum

/-- Every series is a count. -/
def IsCounter (metrics : List ParsedMetric) (name : String) : Prop :=
  ∀ m ∈ series metrics name, m.value = .finite (count m) ∧ 0 ≤ count m

/-- The counters as the ingestor and the replayer export them. -/
structure Scraped (data : MetricsResponse) : Prop where
  ingested : IsCounter data.ingestor "walstream_events_ingested_total"
  replayed : IsCounter data.replayer "walstream_events_replayed_total"
  failed : IsCounter data.replayer "walstream_events_failed_total"
  operation : ∀ m ∈ series data.ingestor "walstream_events_ingested_total",
    m.labels.get? "operation" ≠ none

/-- The series of the ingested events with an operation. -/
def ingestedBy (data : MetricsResponse) (operation : String) : List ParsedMetric :=
  seriesOf data.ingestor "walstream_events_ingested_total" "operation" operation

/-- The operations that occur. -/
def Occurs (data : MetricsResponse) (operation : String) : Prop :=
  ∃ m ∈ series data.ingestor "walstream_events_ingested_total",
    m.labels.get? "operation" = some operation

/-- The totals of a snapshot are the sums over the series. -/
structure TotalsAreSums (data : MetricsResponse) (snapshot : MetricsSnapshot) : Prop where
  ingested : snapshot.eventsIngested =
    .finite (total (series data.ingestor "walstream_events_ingested_total"))
  replayed : snapshot.eventsReplayed =
    .finite (total (series data.replayer "walstream_events_replayed_total"))
  failed : snapshot.eventsFailed =
    .finite (total (series data.replayer "walstream_events_failed_total"))
  operations : ∀ operation, Occurs data operation →
    snapshot.eventsIngestedByOperation.get? operation =
      some (.finite (total (ingestedBy data operation)))
  sum_operations : sumOfValues snapshot.eventsIngestedByOperation = snapshot.eventsIngested

/-- All series but the first are 0. -/
def OnlyFirst (ms : List ParsedMetric) : Prop := ∀ m ∈ ms.tail, count m = 0

/-- All series but the last are 0. -/
def OnlyLast (ms : List ParsedMetric) : Prop := ∀ m ∈ ms.dropLast, count m = 0

/-- Of every counter only the first series has counted, of every operation only the last,
and no operation is called `__proto__` or has no name. -/
structure OneSeries (data : MetricsResponse) : Prop where
  ingested : OnlyFirst (series data.ingestor "walstream_events_ingested_total")
  replayed : OnlyFirst (series data.replayer "walstream_events_replayed_total")
  failed : OnlyFirst (series data.replayer "walstream_events_failed_total")
  operations : ∀ operation, Occurs data operation →
    operation ≠ "" ∧ operation ≠ "__proto__" ∧ OnlyLast (ingestedBy data operation)

/-! ## The first series

`find` stops at the first series, which is the sum when nothing else has counted: counts are not
negative, so there is no other way. -/

variable {metrics : List ParsedMetric} {name labelKey label : String}

/-- A total is the count of the first series. -/
theorem valueOrZero_eq (h : IsCounter metrics name) :
    valueOrZero metrics name = .finite (((series metrics name).map count).head?.getD 0) := by
  have hfirst : getMetricValue metrics name =
      (series metrics name).head?.map ParsedMetric.value := by
    rw [getMetricValue, series, List.head?_filter]
  rw [valueOrZero, hfirst, List.head?_map]
  cases hhead : (series metrics name).head? with
  | none => rfl
  | some m =>
      have hm := (h m (List.mem_of_mem_head? hhead)).1
      simp [hm]

theorem nonneg_of_mem_counts {ms : List ParsedMetric} (h : IsCounter metrics name)
    (hms : ∀ m ∈ ms, m ∈ series metrics name) : ∀ x ∈ ms.map count, 0 ≤ x := by
  intro x hx
  obtain ⟨m, hm, rfl⟩ := List.mem_map.mp hx
  exact (h m (hms m hm)).2

/-- A total is the sum when only the first series has counted. -/
theorem valueOrZero_eq_total_iff (h : IsCounter metrics name) :
    valueOrZero metrics name = .finite (total (series metrics name)) ↔
      OnlyFirst (series metrics name) := by
  rw [valueOrZero_eq h, Number.finite.injEq, total,
    head_eq_sum_iff (nonneg_of_mem_counts h fun _ hm => hm), ← List.map_tail,
    List.forall_mem_map]
  rfl

/-! ## The last series of a label

An assignment to a key that is there replaces its value. Of the series with one label the last
remains. -/

/-- What is assigned under a label. -/
theorem filter_labelled (metrics : List ParsedMetric) (hlabel : label ≠ "") :
    (metrics.filterMap (labelled name labelKey)).filter (fun pair => pair.1 = label) =
      (seriesOf metrics name labelKey label).map fun m => (label, m.value) := by
  unfold seriesOf series
  induction metrics with
  | nil => rfl
  | cons m metrics ih =>
      by_cases hname : m.name = name
      · cases hget : m.labels.get? labelKey with
        | none => simpa [labelled, hname, hget] using ih
        | some l =>
            by_cases heq : l = label
            · simpa [labelled, hname, hget, heq, hlabel] using ih
            · by_cases hempty : l = ""
              · simpa [labelled, hname, hget, hempty, Ne.symm hlabel] using ih
              · simpa [labelled, hname, hget, hempty, heq] using ih
      · simpa [labelled, hname] using ih

/-- A label has the value of its last series. -/
theorem get?_getMetricsByLabel (metrics : List ParsedMetric) (hlabel : label ≠ "")
    (hproto : label ≠ "__proto__") :
    (getMetricsByLabel metrics name labelKey).get? label =
      (seriesOf metrics name labelKey label).getLast?.map ParsedMetric.value := by
  rw [getMetricsByLabel, get?_assignAll _ hproto, filter_labelled _ hlabel, List.getLast?_map,
    Option.map_map]
  rfl

/-- What is held comes from a series with that label, which is not empty. -/
theorem mem_entries_getMetricsByLabel {entry : String × Number}
    (h : entry ∈ (getMetricsByLabel metrics name labelKey).entries) :
    entry.1 ≠ "" ∧ entry.1 ≠ "__proto__" ∧
      ∃ m ∈ series metrics name, m.labels.get? labelKey = some entry.1 := by
  obtain ⟨hpair, hproto⟩ := mem_entries_assignAll h
  obtain ⟨m, hm, hlabelled⟩ := List.mem_filterMap.mp hpair
  unfold labelled at hlabelled
  split at hlabelled
  · rename_i hname
    obtain ⟨l, hget, hl⟩ := Option.bind_eq_some_iff.mp hlabelled
    split at hl
    · cases hl
    · rename_i hempty
      obtain rfl := Option.some.inj hl
      exact ⟨hempty, hproto, m, List.mem_filter.mpr ⟨hm, by simpa using hname⟩, hget⟩
  · cases hlabelled

/-- The value of a label is the sum when it is assigned and only its last series has
counted. -/
theorem byLabel_eq_total_iff (h : IsCounter metrics name)
    (hoccurs : ∃ m ∈ series metrics name, m.labels.get? labelKey = some label) :
    (getMetricsByLabel metrics name labelKey).get? label =
        some (.finite (total (seriesOf metrics name labelKey label))) ↔
      label ≠ "" ∧ label ≠ "__proto__" ∧ OnlyLast (seriesOf metrics name labelKey label) := by
  have hsub : ∀ m ∈ seriesOf metrics name labelKey label, m ∈ series metrics name :=
    fun m hm => (List.mem_filter.mp hm).1
  have hlast : label ≠ "" → label ≠ "__proto__" →
      ((getMetricsByLabel metrics name labelKey).get? label =
        some (.finite (total (seriesOf metrics name labelKey label))) ↔
          OnlyLast (seriesOf metrics name labelKey label)) := by
    intro hlabel hproto
    have hnonempty : seriesOf metrics name labelKey label ≠ [] := by
      obtain ⟨m, hm, hget⟩ := hoccurs
      exact List.ne_nil_of_mem (List.mem_filter.mpr ⟨hm, by simpa using hget⟩)
    obtain ⟨m, hm⟩ := Option.ne_none_iff_exists'.mp (mt List.getLast?_eq_none_iff.mp hnonempty)
    have hvalue := (h m (hsub m (List.mem_of_getLast? hm))).1
    -- the dictionary has the value of the last metric with the label
    have hcounts : ((seriesOf metrics name labelKey label).map count).getLast?.getD 0 =
        count m := by
      rw [List.getLast?_map, hm]
      rfl
    rw [get?_getMetricsByLabel _ hlabel hproto, hm, Option.map_some, hvalue, Option.some.injEq,
      Number.finite.injEq, ← hcounts, total, getLast_eq_sum_iff (nonneg_of_mem_counts h hsub),
      ← List.map_dropLast, List.forall_mem_map]
    rfl
  constructor
  · intro hget
    obtain ⟨hlabel, hproto, -⟩ :=
      mem_entries_getMetricsByLabel ((Dict.get?_eq_some_iff _ _ _).mp hget)
    exact ⟨hlabel, hproto, (hlast hlabel hproto).mp hget⟩
  · rintro ⟨hlabel, hproto, honly⟩
    exact (hlast hlabel hproto).mpr honly

/-! ## The sum over the operations

The dashboard shows the operations beside the total, so their values should add up to it. Since
every series has an operation, sums that are right for each of them add up to the sum of all. -/

theorem foldl_add_finite (qs : List ℚ) (s : ℚ) :
    (qs.map Number.finite).foldl (fun sum value => sum + value) (.finite s) =
      .finite (s + qs.sum) := by
  induction qs generalizing s with
  | nil => simp
  | cons q qs ih =>
      rw [List.map_cons, List.foldl_cons, Number.finite_add, ih, List.sum_cons, add_assoc]

/-- When every label has the sum of its series, the values add up to the sum of all. -/
theorem sumOfValues_getMetricsByLabel
    (hlabels : ∀ m ∈ series metrics name, ∃ label, m.labels.get? labelKey = some label ∧
      (getMetricsByLabel metrics name labelKey).get? label =
        some (.finite (total (seriesOf metrics name labelKey label)))) :
    sumOfValues (getMetricsByLabel metrics name labelKey) =
      .finite (total (series metrics name)) := by
  -- each value shown is the total of its group
  have hvalues : (getMetricsByLabel metrics name labelKey).values =
      ((getMetricsByLabel metrics name labelKey).keys.map fun label =>
        total (seriesOf metrics name labelKey label)).map Number.finite := by
    rw [Dict.values, Dict.keys, List.map_map, List.map_map]
    apply List.map_congr_left
    intro entry hentry
    obtain ⟨-, -, m, hm, hget⟩ := mem_entries_getMetricsByLabel hentry
    obtain ⟨label, hlabel, hvalue⟩ := hlabels m hm
    obtain rfl := Option.some.inj (hlabel.symm.trans hget)
    have hread := (Dict.get?_eq_some_iff _ _ entry.2).mpr hentry
    exact Option.some.inj (hread.symm.trans hvalue)
  -- and the groups are the whole series, each metric in one of them
  have hgroups := sum_groups (getMetricsByLabel metrics name labelKey).nodup
    (fun m : ParsedMetric => (m.labels.get? labelKey).getD "") count (series metrics name)
    (by
      intro m hm
      obtain ⟨label, hlabel, hvalue⟩ := hlabels m hm
      rw [hlabel]
      exact List.mem_map_of_mem ((Dict.get?_eq_some_iff _ _ _).mp hvalue))
  have hgroup : ∀ label, total (seriesOf metrics name labelKey label) =
      (((series metrics name).filter fun m =>
        (m.labels.get? labelKey).getD "" = label).map count).sum := by
    intro label
    rw [total, seriesOf]
    congr 2
    apply List.filter_congr
    intro m hm
    obtain ⟨l, hl, -⟩ := hlabels m hm
    simp [hl]
  rw [sumOfValues, hvalues, foldl_add_finite, zero_add]
  simp only [hgroup]
  exact congrArg Number.finite hgroups

/-! ## The totals

One condition for each of the counters, and together they are the condition for the snapshot. -/

/-- A series of the ingested events. -/
def ingestedSeries (table operation : String) (q : ℚ) : ParsedMetric :=
  { name := "walstream_events_ingested_total",
    labels := Dict.ofPairs [("table", table), ("operation", operation)],
    value := .finite q, help := "", type := "counter" }

/-- The response when only the ingestor has anything to export. -/
def onlyIngestor (ingestor : List ParsedMetric) : MetricsResponse :=
  { timestamp := "", ingestor := ingestor, control := [], replayer := [], errors := [] }

/-- An ingestor that has ingested inserts into two tables. -/
def twoTables : MetricsResponse :=
  onlyIngestor [ingestedSeries "public.users" "INSERT" 5, ingestedSeries "public.orders" "INSERT" 7]

theorem scraped_onlyIngestor {ingestor : List ParsedMetric}
    (hcounter : IsCounter ingestor "walstream_events_ingested_total")
    (hoperation : ∀ m ∈ series ingestor "walstream_events_ingested_total",
      m.labels.get? "operation" ≠ none) : Scraped (onlyIngestor ingestor) where
  ingested := hcounter
  replayed := fun m hm => absurd hm (List.not_mem_nil (a := m))
  failed := fun m hm => absurd hm (List.not_mem_nil (a := m))
  operation := hoperation

theorem scraped_twoTables : Scraped twoTables :=
  scraped_onlyIngestor (by unfold IsCounter; decide +kernel) (by decide +kernel)

/-- The snapshot shows 5 of the 12 events, and 7 inserts. -/
theorem totals_fail : ¬ ∀ (refs : MetricsRefs) (data : MetricsResponse) (now : ℤ)
    (snapshot : MetricsSnapshot), Scraped data →
      (useMetricsSnapshot refs (some data) now).1 = some snapshot →
      TotalsAreSums data snapshot := by
  intro hall
  have htotals := hall { previousRef := none, historyRef := [] } twoTables 0 _ scraped_twoTables
    rfl
  have hshown : valueOrZero twoTables.ingestor "walstream_events_ingested_total" = .finite 5 := by
    decide +kernel
  have hsum : total (series twoTables.ingestor "walstream_events_ingested_total") = 12 := by
    decide +kernel
  have hingested := htotals.ingested
  rw [hsum] at hingested
  have hequal : (5 : ℚ) = 12 := Number.finite.inj (hshown.symm.trans hingested)
  norm_num at hequal

/-- **Dashboard totals.** The totals of a snapshot are the sums over the series exactly when
there is one series to read: the first of each counter and the last of each operation. -/
theorem totals_iff {refs : MetricsRefs} {data : MetricsResponse} {now : ℤ}
    {snapshot : MetricsSnapshot} (h : Scraped data)
    (hsnapshot : (useMetricsSnapshot refs (some data) now).1 = some snapshot) :
    TotalsAreSums data snapshot ↔ OneSeries data := by
  obtain rfl := Option.some.inj hsnapshot
  have hoperation := fun {operation : String} (hoccurs : Occurs data operation) =>
    byLabel_eq_total_iff h.ingested hoccurs
  constructor
  · intro htotals
    exact ⟨(valueOrZero_eq_total_iff h.ingested).mp htotals.ingested,
      (valueOrZero_eq_total_iff h.replayed).mp htotals.replayed,
      (valueOrZero_eq_total_iff h.failed).mp htotals.failed,
      fun operation hoccurs => (hoperation hoccurs).mp (htotals.operations operation hoccurs)⟩
  · intro hone
    have hingested := (valueOrZero_eq_total_iff h.ingested).mpr hone.ingested
    refine ⟨hingested, (valueOrZero_eq_total_iff h.replayed).mpr hone.replayed,
      (valueOrZero_eq_total_iff h.failed).mpr hone.failed,
      fun operation hoccurs => (hoperation hoccurs).mpr (hone.operations operation hoccurs), ?_⟩
    refine (sumOfValues_getMetricsByLabel ?_).trans hingested.symm
    intro m hm
    obtain ⟨operation, hget⟩ := Option.ne_none_iff_exists'.mp (h.operation m hm)
    have hoccurs : Occurs data operation := ⟨m, hm, hget⟩
    exact ⟨operation, hget, (hoperation hoccurs).mpr (hone.operations operation hoccurs)⟩

/-- An ingestor that has ingested inserts into one table, and opened the series of another
operation. -/
def oneTable : MetricsResponse :=
  onlyIngestor [ingestedSeries "public.users" "INSERT" 5, ingestedSeries "public.users" "DELETE" 0]

theorem scraped_oneTable : Scraped oneTable :=
  scraped_onlyIngestor (by unfold IsCounter; decide +kernel) (by decide +kernel)

theorem oneSeries_oneTable : OneSeries oneTable where
  ingested := by
    unfold OnlyFirst
    decide +kernel
  replayed := fun m hm => absurd hm (List.not_mem_nil (a := m))
  failed := fun m hm => absurd hm (List.not_mem_nil (a := m))
  operations := by
    rintro operation ⟨m, hm, hget⟩
    have hall : ∀ m ∈ series oneTable.ingestor "walstream_events_ingested_total",
        m.labels.get? "operation" = some "INSERT" ∨
          m.labels.get? "operation" = some "DELETE" := by decide +kernel
    unfold OnlyLast
    rcases hall m hm with hinsert | hdelete
    · obtain rfl := Option.some.inj (hinsert.symm.trans hget)
      decide +kernel
    · obtain rfl := Option.some.inj (hdelete.symm.trans hget)
      decide +kernel

/-- The condition is met by an ingestor that has seen one table and one operation. -/
theorem totals_sample : TotalsAreSums oneTable
    (newSnapshot { previousRef := none, historyRef := [] } oneTable 0) := by
  have hsnapshot : (useMetricsSnapshot { previousRef := none, historyRef := [] }
      (some oneTable) 0).1 =
        some (newSnapshot { previousRef := none, historyRef := [] } oneTable 0) := rfl
  exact (totals_iff scraped_oneTable hsnapshot).mpr oneSeries_oneTable

end WalStream.Frontend
