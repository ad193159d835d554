/-
Who renews a lease.

The renewal loop goes by `current_job_id`, and the row by `worker_id`: the lease is extended
when the two agree. `current_job_id` is cleared by the final writes, after they succeeded, and
when the job is found cancelled; an exception that leaves `_fail_job` or `_acquire_job` leaves
it as it is. So what has to be shown is that a worker that goes back to the loop of `start`
does not leave both behind. The final writes take care of the row, whatever it holds by then;
the other ways out are the condition of the results here.
-/
import WalStream.Fleet.System
import WalStream.Job.Lease

set_option autoImplicit false

namespace WalStream.Fleet

open Lib Job

/-! ## Ownership and memory

The two halves of a renewal: what the row says and what the process remembers. A zombie lease is
a job of which a worker has both and at which it is not. -/

/-- The row of the job carries the id of the worker. -/
def Sys.Owns (s : Sys) (w : Nat) (j : JobId) : Prop :=
  (s.rows j).bind (·.worker_id) = some w

instance (s : Sys) (w : Nat) (j : JobId) : Decidable (s.Owns w j) :=
  inferInstanceAs (Decidable ((s.rows j).bind (·.worker_id) = some w))

/-- `current_job_id` names the job, or a call of `_renew_lease` for it is under way. -/
def Process.Remembers (p : Process) (j : JobId) : Prop :=
  p.current_job_id = some j ∨ p.renewal.map Prod.fst = some j

instance (p : Process) (j : JobId) : Decidable (p.Remembers j) :=
  inferInstanceAs (Decidable (p.current_job_id = some j ∨ p.renewal.map Prod.fst = some j))

/-- The step extends the lease of the job: the `UPDATE` of `_renew_lease` finds the row. -/
def Extends (s : Sys) (w : Nat) (j : JobId) : Action → Prop
  | .renew v => v = w ∧ (s.procs w).renewal.map Prod.fst = some j ∧ s.Owns w j
  | _ => False

instance (s : Sys) (w : Nat) (j : JobId) (a : Action) : Decidable (Extends s w j a) := by
  cases a <;> unfold Extends <;> infer_instance

/-- Going back to the loop of `start` other than by a final write, the worker does not leave
a job behind that carries its id and that it remembers. -/
def LeavesClean (s : Sys) : Action → Prop
  -- out of `_acquire_job`, with the acquisition committed
  | .acquire w j true => ¬ (s.procs w).Remembers j
  -- out of `_acquire_job`, or out of `_fail_job`
  | .raise w => ∀ j ∈ (s.procs w).main.left_by_raise, ¬ (s.Owns w j ∧ (s.procs w).Remembers j)
  -- the return after `CANCELLED`, or after a checkpoint
  | .go w .proceed =>
      ∀ j ∈ (s.procs w).main.left_by_return, ¬ (s.Owns w j ∧ (s.procs w).Remembers j)
  | _ => True

instance (s : Sys) : DecidablePred (LeavesClean s) := fun a => by
  cases a with
  | acquire w j lost => cases lost <;> unfold LeavesClean <;> infer_instance
  | go w next => cases next <;> unfold LeavesClean <;> infer_instance
  | _ => unfold LeavesClean; infer_instance

section

variable {cfg : Config} {s t : Sys} {a : Action} {w : Nat} {j : JobId}

/-- For a row that is known, owning is a matter of one column. -/
theorem owns_of_row {row : ReplayJob} (hrow : s.rows j = some row) :
    s.Owns w j ↔ row.worker_id = some w := by
  rw [Sys.Owns, hrow, Option.bind_some]

/-! ## What a step does to them

Each half is gained in one way and lost in several. The acquisition writes the first before the
worker has the second. -/

/-- What a transaction does to the columns of the lease: it keeps both, or it clears both. -/
def KeepsOrClears (base new : ReplayJob) : Prop :=
  (new.worker_id = base.worker_id ∧ new.lease_expires_at = base.lease_expires_at) ∨
    (new.worker_id = none ∧ new.lease_expires_at = none)

/-- No request moves a lease to another worker: `cancel_job` clears it, and the others do not
look at it. -/
theorem keepsOrClears_of_api (tx : ApiTx) : KeepsOrClears tx.base tx.new := by
  cases (ApiOp.apply_spec tx.accepted).2 with
  | same hs hw hl => exact Or.inl ⟨hw, hl⟩
  | released hs hw hl => exact Or.inr ⟨hw, hl⟩
  | queued hs hbefore hw hl => exact Or.inl ⟨hw, hl⟩

/-- Neither does a transaction of a worker. The final writes clear the lease, the other ones
keep it. -/
theorem keepsOrClears_of_worker (tx : WorkerTx) (base : ReplayJob) :
    KeepsOrClears base (tx.body base) := by
  cases tx.leaseWrite base with
  | kept hs hw hl => exact Or.inl ⟨hw, hl⟩
  | cleared hs hw hl => exact Or.inr ⟨hw, hl⟩

/-- After the commit the row is unowned, or the two columns are those it had. -/
theorem KeepsOrClears.flush_worker_id {base new : ReplayJob} (h : KeepsOrClears base new)
    (row : ReplayJob) :
    (flush base new row).worker_id = row.worker_id ∨ (flush base new row).worker_id = none := by
  simp only [flush]
  rcases h with ⟨hw, -⟩ | ⟨hw, -⟩
  · rw [hw, written_self]
    exact Or.inl rfl
  · rw [hw]
    exact (written_cases _ _ _).symm

/-- A worker comes to own a job in one way only, by the atomic `UPDATE` of `_acquire_job`,
whether or not its answer arrives. -/
theorem owns_cases (hs : step cfg s a = some t) (h : t.Owns w j) :
    s.Owns w j ∨ ∃ lost, a = .acquire w j lost := by
  have hflush : ∀ {base new row : ReplayJob}, KeepsOrClears base new → s.rows j = some row →
      (flush base new row).worker_id = some w → s.Owns w j := by
    intro base new row hwrite hrow hw
    rcases hwrite.flush_worker_id row with heq | hnone
    · rw [owns_of_row hrow, ← heq, hw]
    · rw [hnone] at hw
      cases hw
  unfold Sys.Owns at h
  have hwrote := wrote hs j
  generalize t.rows j = after at h hwrote
  cases hwrote with
  | kept => exact Or.inl h
  | created speed_factor hrow => cases h
  | changed i tx row ha htx hrow => exact Or.inl (hflush (keepsOrClears_of_api tx) hrow h)
  | deleted i ha htx => cases h
  | acquired v lost row ha hidle hrow =>
      obtain rfl := Option.some.inj h
      exact Or.inr ⟨lost, ha⟩
  | committed v lost within base row tx ha hmain hrow =>
      exact Or.inl (hflush (keepsOrClears_of_worker tx base) hrow h)
  | renewed v now row ha hj hrow howner => exact Or.inl ((owns_of_row hrow).mpr h)

/-- And it comes to remember one when it has been told that it acquired it. The two lemmas meet
in the invariant: what is owned and remembered was acquired and answered. -/
theorem remembers_cases (hs : step cfg s a = some t) (h : (t.procs w).Remembers j) :
    (s.procs w).Remembers j ∨ (t.procs w).main = .acquired j := by
  have hmoved := moved hs w
  generalize t.procs w = p at h hmoved
  cases hmoved with
  | restarted p hjob hrenewal hidle =>
      rcases h with h | h
      · rw [hjob] at h
        cases h
      · rw [hrenewal] at h
        cases h
  | went next p ha hp =>
      cases Process.went hp with
      | refetched j' hmain =>
          rcases h with h | h
          · obtain rfl := Option.some.inj h
            exact Or.inr rfl
          · exact Or.inl (Or.inr h)
      | saw_cancelled j' hmain =>
          rcases h with h | h
          · cases h
          · exact Or.inl (Or.inr h)
      | _ => exact Or.inl h
  | committed j' within base row tx ha hmain hrow =>
      cases tx with
      | setup | progress | event_failed => exact Or.inl h
      | checkpoint | complete | fail =>
          rcases h with h | h
          · cases h
          · exact Or.inl (Or.inr h)
  | renewing j' hj' =>
      -- the renewal loop takes the job from `current_job_id`
      rcases h with h | h
      · exact Or.inl (Or.inl h)
      · obtain rfl := Option.some.inj h
        exact Or.inl (Or.inl hj')
  | renewed =>
      rcases h with h | h
      · exact Or.inl (Or.inl h)
      · cases h
  | _ => exact Or.inl h

/-- A final write that read the job owned leaves it unowned. -/
theorem not_owns_of_commit {lost within : Bool} {base : ReplayJob} {tx : WorkerTx}
    (hs : step cfg s (.commit w lost) = some t)
    (hmain : (s.procs w).main = .writing j within base tx)
    (hclears : (tx.body base).worker_id = none) (hbase : base.worker_id ≠ none) :
    ¬ t.Owns w j := by
  have hrow : ∀ row, (flush base (tx.body base) row).worker_id = none := by
    intro row
    simp only [flush, hclears]
    exact written_of_ne _ hbase.symm
  have hleft : ∀ {u : Sys} (row), u.rows j = some (flush base (tx.body base) row) →
      ¬ u.Owns w j := by
    intro u row hu
    rw [Sys.Owns, hu, Option.bind_some, hrow]
    exact (Option.some_ne_none w).symm
  cases step_took hs with
  | commit _ j' within' base' row tx' hmain' hrow' =>
      rw [hmain] at hmain'
      cases hmain'
      exact hleft row (by simp only [Sys.set_proc, Sys.set_row, Function.update_self])
  | commit_lost _ j' within' base' row tx' main hmain' hrow' hraised =>
      rw [hmain] at hmain'
      cases hmain'
      exact hleft row (by simp only [Sys.set_proc, Sys.set_row, Function.update_self])

/-! ## The invariant

A worker that has both is at the job. The other part of it concerns final writes in flight: they
have read the job as owned, so that to clear the column is a change of it, and is written. -/

/-- A job that carries the worker's id and that the worker remembers is the one it is at; and
what a transaction has read is owned at least as long as the row is. -/
structure NoZombie (s : Sys) : Prop where
  inside : ∀ w j, (s.procs w).Remembers j → s.Owns w j → (s.procs w).main.job = some j
  read : ∀ w j within base tx, (s.procs w).main = .writing j within base tx → s.Owns w j →
    base.worker_id ≠ none

/-- A final write is prepared from a row that carries the worker's id, as long as the worker
still owns it when it commits: nobody gives it back to the worker in between. -/
theorem NoZombie.step_read (h : NoZombie s) (hs : step cfg s a = some t) {within : Bool}
    {base : ReplayJob} {tx : WorkerTx} (hmain : (t.procs w).main = .writing j within base tx)
    (howns : t.Owns w j) : base.worker_id ≠ none := by
  rcases writing_cases hs hmain with hmain | ⟨hrow, next, rfl⟩
  · refine h.read w j within base tx hmain ((owns_cases hs howns).resolve_right ?_)
    -- a worker within a transaction does not acquire
    rintro ⟨lost, rfl⟩
    have hidle := idle_of_acquire hs
    rw [hmain] at hidle
    cases hidle
  · have howned := (owns_cases hs howns).resolve_right (by rintro ⟨lost, ⟨⟩⟩)
    rw [(owns_of_row hrow).mp howned]
    exact Option.some_ne_none w

/-- The worker that owns and remembers the job is at it. Leaving the job is the only step that
could break this, and there either the final write has cleared the row or the condition says
that one of the two is gone. -/
theorem NoZombie.step_inside (h : NoZombie s) (hleaves : LeavesClean s a)
    (hs : step cfg s a = some t) (hmem : (t.procs w).Remembers j) (howns : t.Owns w j) :
    (t.procs w).main.job = some j := by
  rcases owns_cases hs howns with howned | ⟨lost, rfl⟩
  · rcases remembers_cases hs hmem with hremembers | hacquired
    · rcases leaves_cases hs (h.inside w j hremembers howned) with hjob |
        ⟨hcurrent, hrenewal⟩ | ⟨rfl, hleft⟩ | ⟨rfl, hleft⟩ |
        ⟨lost, within, base, tx, rfl, hmain, hclears⟩
      · exact hjob
      · rw [Process.Remembers, hcurrent, hrenewal] at hmem
        rcases hmem with hmem | hmem <;> cases hmem
      · exact absurd ⟨howned, hremembers⟩ (hleaves j hleft)
      · exact absurd ⟨howned, hremembers⟩ (hleaves j hleft)
      · -- the final write clears the owner that was read
        exact absurd howns
          (not_owns_of_commit hs hmain hclears (h.read w j within base tx hmain howned))
    · rw [hacquired]
      rfl
  · cases step_took hs with
    | acquire _ _ row hidle hrow =>
        simp only [Sys.set_proc, Function.update_self]
        rfl
    | acquire_lost _ _ row hidle hrow => exact absurd hmem hleaves

/-- **One step** under the condition. -/
theorem NoZombie.step (h : NoZombie s) (hleaves : LeavesClean s a)
    (hs : Fleet.step cfg s a = some t) : NoZombie t where
  inside _ _ := h.step_inside hleaves hs
  read _ _ _ _ _ := h.step_read hs

/-! ## One lease duration

Both clauses of the lease are measured from the clock, so no lease lies further ahead than one
duration. That holds in every run, without the condition. -/

/-- The worker and the lease are both set, or both null. -/
def Paired (row : ReplayJob) : Prop := row.worker_id = none ↔ row.lease_expires_at = none

/-- Both columns of the lease are written by the same transactions, so they stay paired through
every commit. -/
theorem paired_flush {base new row : ReplayJob} (hbase : Paired base) (hrow : Paired row)
    (h : KeepsOrClears base new) : Paired (flush base new row) := by
  rcases h with ⟨hw, hl⟩ | ⟨hw, hl⟩
  · simp only [Paired, flush, hw, hl, written_self]
    exact hrow
  · by_cases hb : base.worker_id = none
    · -- neither clear is written
      simp only [Paired, flush, hw, hl, hb, hbase.mp hb, written_self]
      exact hrow
    · have hbl : base.lease_expires_at ≠ none := fun hnone => hb (hbase.mpr hnone)
      simp only [Paired, flush, hw, hl]
      rw [written_of_ne _ (Ne.symm hb), written_of_ne _ (Ne.symm hbl)]

/-- A commit leaves the lease as it is or clears it, even one that was prepared on an older row:
columns it has not changed are not written. -/
theorem KeepsOrClears.flush_lease {base new : ReplayJob} (h : KeepsOrClears base new)
    (row : ReplayJob) :
    (flush base new row).lease_expires_at = row.lease_expires_at ∨
      (flush base new row).lease_expires_at = none := by
  simp only [flush]
  rcases h with ⟨-, hl⟩ | ⟨-, hl⟩
  · rw [hl, written_self]
    exact Or.inl rfl
  · rw [hl]
    exact (written_cases _ _ _).symm

/-- Time does not go back. -/
theorem clock_le (hs : Fleet.step cfg s a = some t) : s.clock ≤ t.clock := by
  cases step_took hs with
  | tick ms => exact Nat.le_add_right _ _
  | _ => exact le_rfl

/-- No lease lies further ahead than one lease duration. -/
structure Leased (cfg : Config) (s : Sys) : Prop where
  paired : ∀ j row, s.rows j = some row → Paired row
  ahead : ∀ j row lease, s.rows j = some row → row.lease_expires_at = some lease →
    lease ≤ s.clock + cfg.job_lease_duration
  renewal : ∀ w j now, (s.procs w).renewal = some (j, now) → now ≤ s.clock
  api : ∀ i j tx, s.api i = some (j, .change tx) → Paired tx.base
  worker : ∀ w j within base tx, (s.procs w).main = .writing j within base tx → Paired base

/-- A lease is set by an acquisition and by a renewal, each time from the clock. -/
theorem Leased.step_row (h : Leased cfg s) (hs : Fleet.step cfg s a = some t) {row' : ReplayJob}
    (hrow' : t.rows j = some row') :
    Paired row' ∧ ∀ lease, row'.lease_expires_at = some lease →
      lease ≤ s.clock + cfg.job_lease_duration := by
  -- a commit keeps the two columns of the lease as they are, or clears both
  have hflush : ∀ {base new row : ReplayJob}, Paired base → KeepsOrClears base new →
      s.rows j = some row → Paired (flush base new row) ∧
        ∀ lease, (flush base new row).lease_expires_at = some lease →
          lease ≤ s.clock + cfg.job_lease_duration := by
    intro base new row hbase hwrite hrow
    refine ⟨paired_flush hbase (h.paired j row hrow) hwrite, fun lease hlease => ?_⟩
    rcases hwrite.flush_lease row with heq | hnone
    · exact h.ahead j row lease hrow (heq.symm.trans hlease)
    · rw [hnone] at hlease
      cases hlease
  have hwrote := wrote hs j
  rw [hrow'] at hwrote
  generalize hafter : some row' = after at hwrote
  cases hwrote with
  | kept => exact ⟨h.paired j row' hafter.symm, fun lease => h.ahead j row' lease hafter.symm⟩
  | created speed_factor hrow =>
      cases hafter
      exact ⟨⟨fun _ => rfl, fun _ => rfl⟩, fun lease hlease => by cases hlease⟩
  | changed i tx row ha htx hrow =>
      cases hafter
      exact hflush (h.api i j tx htx) (keepsOrClears_of_api tx) hrow
  | deleted i ha htx => cases hafter
  -- the two writes that set a lease measure it from their own clock
  | acquired v lost row ha hidle hrow =>
      cases hafter
      refine ⟨by simp [Paired, acquired_row], fun lease hlease => ?_⟩
      obtain rfl := Option.some.inj hlease
      exact le_rfl
  | committed v lost within base row tx ha hmain hrow =>
      cases hafter
      exact hflush (h.worker v j within base tx hmain) (keepsOrClears_of_worker tx base) hrow
  | renewed v now row ha hj hrow howner =>
      cases hafter
      refine ⟨?_, fun lease hlease => ?_⟩
      · simp [Paired, howner]
      · obtain rfl := Option.some.inj hlease
        exact Nat.add_le_add_right (h.renewal v j now hj) _

/-- **One step.** Time passing brings every lease nearer. -/
theorem Leased.step (h : Leased cfg s) (hs : Fleet.step cfg s a = some t) : Leased cfg t where
  paired j row hrow := (h.step_row hs hrow).1
  ahead j row lease hrow hlease :=
    ((h.step_row hs hrow).2 lease hlease).trans (Nat.add_le_add_right (clock_le hs) _)
  renewal := by
    intro w j now hj
    refine le_trans ?_ (clock_le hs)
    have hmoved := moved hs w
    generalize t.procs w = p at hj hmoved
    cases hmoved with
    | restarted p hcurrent hrenewal hidle =>
        rw [hrenewal] at hj
        cases hj
    | went next p ha hp => cases Process.went hp <;> exact h.renewal w j now hj
    | committed j' within base row tx ha hmain hrow =>
        cases tx <;> exact h.renewal w j now hj
    -- the renewal keeps the time that it has read
    | renewing j' hcurrent =>
        obtain ⟨rfl, rfl⟩ := Prod.mk.inj (Option.some.inj hj)
        exact le_rfl
    | renewed => cases hj
    | _ => exact h.renewal w j now hj
  api := by
    intro i j tx htx
    rcases api_cases hs htx with htx | hrow
    · exact h.api i j tx htx
    · exact h.paired j _ hrow
  worker := by
    intro w j within base tx hmain
    rcases writing_cases hs hmain with hmain | ⟨hrow, -⟩
    · exact h.worker w j within base tx hmain
    · exact h.paired j base hrow

/-! ## No zombie leases

Together: an abandoned job is renewed by nobody, and becomes eligible when its lease is over. -/

/-- Somebody other than a renewal loop writes the row of the job: a request, an acquisition,
or a transaction of a worker that is at the job. -/
def Touches (s : Sys) (j : JobId) : Action → Prop
  | .api_commit i => (s.api i).map Prod.fst = some j
  | .acquire _ k _ => k = j
  | .commit v _ => (s.procs v).main.job = some j
  | _ => False

/-- The job is abandoned by `w`: it waits for a worker or runs, it carries the id of `w`, and
`w` is not at it. -/
structure Abandoned (s : Sys) (w : Nat) (j : JobId) (row : ReplayJob) : Prop where
  found : s.rows j = some row
  owner : row.worker_id = some w
  status : row.status = .running ∨ row.status = .queued
  outside : (s.procs w).main.job ≠ some j

/-- Nothing happens to an abandoned job that nobody touches. -/
theorem Abandoned.step {row : ReplayJob} (h : Abandoned s w j row) (hzombie : NoZombie s)
    (htouch : ¬ Touches s j a) (hs : Fleet.step cfg s a = some t) : Abandoned t w j row := by
  have howns : s.Owns w j := (owns_of_row h.found).mpr h.owner
  refine ⟨?_, h.owner, h.status, fun hjob => ?_⟩
  · have hwrote := wrote hs j
    generalize t.rows j = after at hwrote
    cases hwrote with
    | kept => exact h.found
    | created speed_factor hrow =>
        rw [h.found] at hrow
        cases hrow
    | changed i tx row' ha htx hrow =>
        subst ha
        exact absurd (by simp only [Touches, htx, Option.map_some]) htouch
    | deleted i ha htx =>
        subst ha
        exact absurd (by simp only [Touches, htx, Option.map_some]) htouch
    | acquired v lost row' ha hidle hrow =>
        subst ha
        exact absurd rfl htouch
    | committed v lost within base row' tx ha hmain hrow =>
        subst ha
        exact absurd (by simp only [Touches, hmain, Main.job]) htouch
    | renewed v now row' ha hj hrow howner =>
        -- only the owner renews, and it would be at the job
        rw [h.found] at hrow
        obtain rfl := Option.some.inj hrow
        rw [h.owner] at howner
        obtain rfl := Option.some.inj howner
        exact absurd (hzombie.inside _ j (Or.inr (by rw [hj]; rfl)) howns) h.outside
  · rcases job_cases hs hjob with hjob | rfl
    · exact h.outside hjob
    · exact htouch rfl

/-- An abandoned job is eligible once its lease is over. -/
theorem Abandoned.eligible {row : ReplayJob} (h : Abandoned s w j row) {now : Nat}
    (hlease : ∀ lease, row.lease_expires_at = some lease → lease < now)
    (hpaired : Paired row) : eligible now row = true := by
  cases hl : row.lease_expires_at with
  | none =>
      have hnone := hpaired.mpr hl
      rw [h.owner] at hnone
      cases hnone
  | some lease =>
      have hlt := hlease lease hl
      rcases h.status with hs | hs <;> simp [Job.eligible, hs, hl, hlt]

/-- Before any worker runs nobody owns anything, -/
theorem noZombie_initial (clock : Nat) : NoZombie (Sys.initial clock) where
  inside w j hremembers _ := by rcases hremembers with h | h <;> cases h
  read w j within base tx hmain _ := by cases hmain

/-- and there is no row. -/
theorem leased_initial (clock : Nat) : Leased cfg (Sys.initial clock) where
  paired j row hrow := by cases hrow
  ahead j row lease hrow _ := by cases hrow
  renewal w j now hj := by cases hj
  api i j tx htx := by cases htx
  worker w j within base tx hmain := by cases hmain

/-- **No zombie leases.** In every run in which no worker goes back to the loop of `start`,
other than by a final write, leaving behind a job that carries its id and that it remembers:
a lease is only extended while its worker is inside `_acquire_job` or `_execute_job` for that
job. And a job that its worker has abandoned, and that nobody touches, is eligible as soon as
one lease duration has passed. -/
theorem no_zombie_leases {clock : Nat} {tr : List (Sys × Action)}
    (hrun : Run (Fleet.step cfg) (Sys.initial clock) tr s) (hclean : StepsMeet LeavesClean tr) :
    (∀ p ∈ tr, ∀ w j, Extends p.1 w j p.2 → (p.1.procs w).main.job = some j) ∧
    ∀ w j row, Abandoned s w j row → ∀ tr' t, Run (Fleet.step cfg) s tr' t →
      StepsMeet LeavesClean tr' → StepsMeet (fun s a => ¬ Touches s j a) tr' →
      s.clock + cfg.job_lease_duration < t.clock →
        t.rows j = some row ∧ Job.eligible t.clock row = true := by
  have hstep : ∀ s a t, NoZombie s → LeavesClean s a → Fleet.step cfg s a = some t → NoZombie t :=
    fun _ _ _ h hC hs => h.step hC hs
  have hzombie := hrun.invariant hstep (noZombie_initial clock) hclean
  refine ⟨fun p hp w j hextends => ?_, ?_⟩
  · have hinv := hrun.invariant_mem hstep (noZombie_initial clock) hclean p hp
    obtain ⟨s, a⟩ := p
    cases a with
    | renew v =>
        obtain ⟨rfl, hrenewal, howns⟩ := hextends
        exact hinv.inside _ j (Or.inr hrenewal) howns
    | _ => cases hextends
  · intro w j row habandoned tr' t hrun' hclean' htouch hclock
    have hleased : Leased cfg s := hrun.invariant (C := fun _ _ => True)
      (fun _ _ _ h _ hs => h.step hs) (leased_initial clock) (fun _ _ => trivial)
    have hkept : NoZombie t ∧ Abandoned t w j row := hrun'.invariant
      (I := fun s => NoZombie s ∧ Abandoned s w j row)
      (C := fun s a => LeavesClean s a ∧ ¬ Touches s j a)
      (fun _ _ _ h hC hs => ⟨h.1.step hC.1 hs, h.2.step h.1 hC.2 hs⟩) ⟨hzombie, habandoned⟩
      (fun p hp => ⟨hclean' p hp, htouch p hp⟩)
    refine ⟨hkept.2.found, hkept.2.eligible (fun lease hlease => ?_)
      (hleased.paired j row habandoned.found)⟩
    exact (hleased.ahead j row lease habandoned.found hlease).trans_lt hclock

/-- A lease that is renewed during the execution. The worker dies, and the job is eligible
again one lease duration later. -/
theorem no_zombie_leases_crashed :
    ∃ tr s row, Run (Fleet.step short_config) (Sys.initial 0) tr s ∧
      (∀ p ∈ tr, ∀ w j, Extends p.1 w j p.2 → (p.1.procs w).main.job = some j) ∧
      row.lease_expires_at = some 110 ∧ Abandoned s 0 0 row ∧
      Job.eligible (s.clock + 61) row = true := by
  have hacts : ∃ tr s, Run (Fleet.step short_config) (Sys.initial 0) tr s ∧
      StepsMeet LeavesClean tr ∧
      (s.rows 0).map (fun row => (row.worker_id, row.status, row.lease_expires_at)) =
        some (some 0, .running, some 110) ∧ (s.procs 0).main.job ≠ some 0 :=
    exists_run_meeting_of_exec
      [.create 0 1, .api_read 0 0 .start, .api_commit 0, .boot 0, .acquire 0 0 false,
        .go 0 .proceed, .go 0 .proceed, .tick 50, .renew_start 0, .renew 0, .crash 0]
      (by decide) (by decide)
  obtain ⟨tr, s, hrun, hclean, hrow, houtside⟩ := hacts
  obtain ⟨row, hfound, hrow⟩ := Option.map_eq_some_iff.mp hrow
  simp only [Prod.mk.injEq] at hrow
  have habandoned : Abandoned s 0 0 row := ⟨hfound, hrow.1, Or.inl hrow.2.1, houtside⟩
  obtain ⟨hinside, heligible⟩ := no_zombie_leases hrun hclean
  refine ⟨tr, s, row, hrun, hinside, hrow.2.2, habandoned, ?_⟩
  exact (heligible 0 0 row habandoned [(s, .tick 61)] _ (Run.cons Run.nil rfl)
    (by simp [LeavesClean]) (by simp [Touches]) (Nat.add_lt_add_left (by decide) _)).2

/-- `_execute_job` fails, and `_fail_job` raises as well. -/
def abandoning_actions : List Action :=
  [.create 0 1, .api_read 0 0 .start, .api_commit 0, .boot 0, .acquire 0 0 false,
    .go 0 .proceed, .go 0 .proceed, .raise 0, .raise 0]

/-- The renewal loop goes on. -/
def renewal_actions : List Action :=
  [.tick 50, .renew_start 0, .renew 0, .tick 50, .renew_start 0, .renew 0, .tick 50]

/-- A zombie lease: the worker is back in the loop of `start` and extends the lease of the job
it has abandoned, which nobody can acquire two lease durations later. -/
theorem zombie_lease :
    ∃ tr s row tr' t, Run (Fleet.step short_config) (Sys.initial 0) tr s ∧ Abandoned s 0 0 row ∧
      Run (Fleet.step short_config) s tr' t ∧ StepsMeet (fun s a => ¬ Touches s 0 a) tr' ∧
      (∃ p ∈ tr', Extends p.1 0 0 p.2 ∧ (p.1.procs 0).main.job = none) ∧
      s.clock + 2 * short_config.job_lease_duration < t.clock ∧
      (t.rows 0).map (Job.eligible t.clock) = some false := by
  have hend : ((exec (Fleet.step short_config) (Sys.initial 0) abandoning_actions).bind fun s =>
      (exec (Fleet.step short_config) s renewal_actions).map fun t =>
        decide ((s.rows 0).map (fun row => (row.worker_id, row.status)) = some (some 0, .running) ∧
          (s.procs 0).main.job ≠ some 0 ∧
          (∃ p ∈ trace (Fleet.step short_config) s renewal_actions,
            Extends p.1 0 0 p.2 ∧ (p.1.procs 0).main.job = none) ∧
          s.clock + 2 * short_config.job_lease_duration < t.clock ∧
          (t.rows 0).map (Job.eligible t.clock) = some false)) = some true := by
    decide
  obtain ⟨s, hs, hend⟩ := Option.bind_eq_some_iff.mp hend
  obtain ⟨t, ht, hend⟩ := Option.map_eq_some_iff.mp hend
  obtain ⟨hrow, houtside, hextends, hclock, heligible⟩ := of_decide_eq_true hend
  obtain ⟨row, hfound, hrow⟩ := Option.map_eq_some_iff.mp hrow
  simp only [Prod.mk.injEq] at hrow
  refine ⟨_, s, row, _, t, run_trace hs,
    ⟨hfound, hrow.1, Or.inl hrow.2, houtside⟩, run_trace ht, fun p hp => ?_, hextends, hclock,
    heligible⟩
  have hmem := mem_of_mem_trace hp
  generalize p.2 = a at hmem
  simp only [renewal_actions, List.mem_cons, List.not_mem_nil, or_false] at hmem
  rcases hmem with rfl | rfl | rfl | rfl | rfl | rfl | rfl <;> exact id

end

end WalStream.Fleet
