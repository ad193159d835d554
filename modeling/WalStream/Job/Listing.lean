/-
The listing of the jobs, page by page.

Each page is a query of its own. It orders by `created_at` and by nothing else, so which of
two jobs of one instant comes first is for the database to say, and it may say it differently
for the next page. The pages partition the jobs exactly if no page ends between two of them.

Instants are in microseconds, as PostgreSQL keeps them. Of the response, the fields of the
jobs themselves are those of the row.
-/
import WalStream.Job.Row
import WalStream.Lib.Paging
import Mathlib.Order.WithBot

set_option autoImplicit false

namespace WalStream.Job

open Lib

/-! ## The queries -/

/-- A row of `replay_jobs` with what identifies it and what the listing sorts by. -/
structure ListedJob where
  id : Nat
  created_at : Option Int
  row : ReplayJob
deriving DecidableEq

/-- The table. Its primary key is `id`. -/
structure JobTable where
  rows : List ListedJob
  id_unique : (rows.map ListedJob.id).Nodup

/-- `ReplayJob.created_at.desc()`. A job without one sorts as the newest: PostgreSQL puts the
nulls first in a descending order. -/
def created_at_desc (job : ListedJob) : (WithTop Int)ᵒᵈ :=
  OrderDual.toDual (match job.created_at with
    | none => ⊤
    | some t => (t : WithTop Int))

/-- What `query` and `count_query` select. -/
def JobTable.selected (table : JobTable) (status_filter : Option JobStatus) : List ListedJob :=
  match status_filter with
  | none => table.rows
  | some status => table.rows.filter fun job => job.row.status = status

/-- `job_service.list_jobs`, where `ordered` is the order in which the database puts the
selected rows for this query. -/
def list_jobs (table : JobTable) (status_filter : Option JobStatus) (page page_size : Nat)
    (ordered : List ListedJob) : List ListedJob × Nat :=
  let total := (table.selected status_filter).length
  let offset := (page - 1) * page_size
  ((ordered.drop offset).take page_size, total)

/-- `ReplayJobListResponse`. -/
structure ReplayJobListResponse where
  items : List ListedJob
  total : Nat
  page : Nat
  page_size : Nat
  pages : Nat

/-- The endpoint. Pages are counted from 1. -/
def Api.list_jobs (table : JobTable) (status_filter : Option JobStatus) (page page_size : Nat)
    (ordered : List ListedJob) : ReplayJobListResponse :=
  let (jobs, total) := Job.list_jobs table status_filter page page_size ordered
  { items := jobs,
    total := total,
    page := page,
    page_size := page_size,
    pages := (total + page_size - 1) / page_size }

/-! ## The pages of a listing -/

/-- The pages `1..pages` show every selected job once and nothing else, and a later page is
empty. `ordered p` is the order of the query for page `p`. -/
def PagesPartition (table : JobTable) (status_filter : Option JobStatus) (page_size : Nat)
    (ordered : Nat → List ListedJob) : Prop :=
  let response := fun p => Api.list_jobs table status_filter p page_size (ordered p)
  let pages := (response 1).pages
  ((List.range pages).flatMap fun k => (response (k + 1)).items).Perm
      (table.selected status_filter) ∧
    ∀ p, pages < p → (response p).items = []

/-- A page ends between two selected jobs of one `created_at`: for a multiple of `page_size`,
fewer jobs are newer than theirs, and more are newer or equal. -/
def TiesStraddle (table : JobTable) (status_filter : Option JobStatus) (page_size : Nat) : Prop :=
  ∃ k, Straddles created_at_desc (table.selected status_filter) (k * page_size)

section

variable {table : JobTable} {status_filter : Option JobStatus} {page_size : Nat}

theorem JobTable.selected_nodup (table : JobTable) (status_filter : Option JobStatus) :
    (table.selected status_filter).Nodup := by
  have hrows : table.rows.Nodup := table.id_unique.of_map
  cases status_filter with
  | none => exact hrows
  | some status => exact hrows.filter _

theorem list_jobs_items (k : Nat) (ordered : List ListedJob) :
    (Api.list_jobs table status_filter (k + 1) page_size ordered).items
      = page ordered page_size k := rfl

/-- `pages` is the number of pages: all jobs are on them, and none of them is past the end. -/
theorem pages_bounds (hsize : 1 ≤ page_size) (p : Nat) (ordered : List ListedJob) :
    let pages := (Api.list_jobs table status_filter p page_size ordered).pages
    (table.selected status_filter).length ≤ pages * page_size ∧
      ∀ k, k * page_size < (table.selected status_filter).length → k < pages := by
  intro pages
  have hpages : pages = ((table.selected status_filter).length + page_size - 1) / page_size := rfl
  have hmod := Nat.div_add_mod ((table.selected status_filter).length + page_size - 1) page_size
  have hlt := Nat.mod_lt ((table.selected status_filter).length + page_size - 1) hsize
  rw [← hpages, Nat.mul_comm] at hmod
  refine ⟨by omega, fun k hk => ?_⟩
  by_contra hle
  have := Nat.mul_le_mul_right page_size (not_lt.mp hle)
  omega

/-- Without straddling ties the pages partition the jobs, whatever the database decides. -/
theorem partition_of_not_straddle (hsize : 1 ≤ page_size)
    (hties : ¬ TiesStraddle table status_filter page_size) {ordered : Nat → List ListedJob}
    (h : ∀ p, OrderedBy created_at_desc (table.selected status_filter) (ordered p)) :
    PagesPartition table status_filter page_size ordered := by
  have hall : (table.selected status_filter).length
      ≤ (Api.list_jobs table status_filter 1 page_size (ordered 1)).pages * page_size :=
    (pages_bounds hsize 1 (ordered 1)).1
  constructor
  · have hperm := pages_perm (fun k => h (k + 1)) (fun k hk => hties ⟨k, hk⟩)
      (Api.list_jobs table status_filter 1 page_size (ordered 1)).pages
    rw [List.take_of_length_le (by rw [(h (0 + 1)).perm.length_eq]; exact hall)] at hperm
    exact hperm.trans (h (0 + 1)).perm
  · rintro (_ | k) hk
    · exact absurd hk (Nat.not_lt_zero _)
    · rw [list_jobs_items]
      refine page_eq_nil ((h (k + 1)).perm.length_eq ▸ hall.trans ?_)
      exact Nat.mul_le_mul_right page_size (Nat.le_of_lt_succ hk)

/-- With straddling ties two queries may show one job on two pages. -/
theorem exists_not_partition (hsize : 1 ≤ page_size)
    (hties : TiesStraddle table status_filter page_size) :
    ∃ ordered : Nat → List ListedJob,
      (∀ p, OrderedBy created_at_desc (table.selected status_filter) (ordered p)) ∧
        ¬ PagesPartition table status_filter page_size ordered := by
  obtain ⟨_ | k, hk⟩ := hties
  · -- nothing stands before the first page
    obtain ⟨x, -, hlt, -⟩ := hk
    omega
  · obtain ⟨rows, rows', x, h, h', hx, hx'⟩ := hk.exists_mem_pages
    refine ⟨fun p => if p = k + 2 then rows' else rows, fun p => ?_, fun hpart => ?_⟩
    · dsimp only
      split
      · exact h'
      · exact h
    · have hlen : (k + 1) * page_size < (table.selected status_filter).length := by
        obtain ⟨z, -, -, hle⟩ := hk
        exact lt_of_lt_of_le hle List.countP_le_length
      have hnext : k + 1 < (Api.list_jobs table status_filter 1 page_size
          (if 1 = k + 2 then rows' else rows)).pages :=
        (pages_bounds hsize 1 _).2 (k + 1) hlen
      have hnodup := hpart.1.nodup_iff.mpr (table.selected_nodup status_filter)
      refine disjoint_of_nodup_flatMap hnodup (Nat.lt_succ_self k) hnext (a := x) ?_ ?_
      · have hne : ¬ k + 1 = k + 2 := by omega
        simpa only [list_jobs_items, if_neg hne] using hx
      · simpa only [list_jobs_items, if_true] using hx'

end

/-- **The pages partition the jobs whatever order the database gives to ties, exactly if no
page ends between two jobs of one `created_at`.** -/
theorem pages_partition_iff (table : JobTable) (status_filter : Option JobStatus)
    {page_size : Nat} (hsize : 1 ≤ page_size) :
    (∀ ordered : Nat → List ListedJob,
        (∀ p, OrderedBy created_at_desc (table.selected status_filter) (ordered p)) →
          PagesPartition table status_filter page_size ordered) ↔
      ¬ TiesStraddle table status_filter page_size := by
  constructor
  · intro hall hties
    obtain ⟨ordered, h, hnot⟩ := exists_not_partition hsize hties
    exact hnot (hall ordered h)
  · intro hties ordered h
    exact partition_of_not_straddle hsize hties h

/-! ## Twins -/

/-- Two jobs created in the same microsecond. -/
def twins : JobTable :=
  { rows := [⟨0, some 0, .created 1⟩, ⟨1, some 0, .created 1⟩],
    id_unique := by decide }

/-- A job a second younger than another. -/
def siblings : JobTable :=
  { rows := [⟨0, some 0, .created 1⟩, ⟨1, some 1000000, .created 1⟩],
    id_unique := by decide }

/-- One job to a page: the twins may both be shown as the same job. -/
theorem twins_shown_twice :
    ∃ ordered : Nat → List ListedJob,
      (∀ p, OrderedBy created_at_desc (twins.selected none) (ordered p)) ∧
        ¬ PagesPartition twins none 1 ordered := by
  refine ⟨fun p => if p = 2 then twins.rows.reverse else twins.rows, fun p => ?_, ?_⟩
  · dsimp only
    split
    · exact ⟨List.reverse_perm _, by decide⟩
    · exact ⟨List.Perm.refl _, by decide⟩
  · intro h
    exact absurd h.1 (by decide)

theorem pages_partition_iff_siblings :
    (∀ ordered : Nat → List ListedJob,
        (∀ p, OrderedBy created_at_desc (siblings.selected none) (ordered p)) →
          PagesPartition siblings none 1 ordered) ∧
      ¬ TiesStraddle siblings none 1 := by
  have hties : ¬ TiesStraddle siblings none 1 := by
    rintro ⟨k, x, hx, hlt, hle⟩
    rw [Nat.mul_one] at hlt hle
    rcases List.mem_pair.mp hx with rfl | rfl
    · have hup : k < 2 := hle
      have hlow : 1 < k := hlt
      omega
    · have hup : k < 1 := hle
      have hlow : 0 < k := hlt
      omega
  exact ⟨(pages_partition_iff siblings none (Nat.le_refl 1)).mpr hties, hties⟩

end WalStream.Job
