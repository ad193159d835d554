/-
`progress_percent`: the events processed against the events counted.

The first setup transaction that finds `events_total` at 0 sets it to what `count_events`
says; later ones leave it. Over sources whose contents do not change the count a job carries
is therefore the count of its source, and what it may process is the contents of its window.
With Redis the two are one number. With Kafka the count leaves out what `Source.Counting`
says, and a job can process more than its total.
-/
import WalStream.Job.Accounting
import WalStream.Job.Routing
import WalStream.Source.Counting
import Mathlib.Algebra.Order.Field.Rat
import Mathlib.Data.Rat.Cast.Order
import Mathlib.Tactic.Linarith

set_option autoImplicit false

namespace WalStream.Job

open Lib Source

/-! ## The percentage

On exact numbers. The bound only needs that rounding to two digits does not go beyond a hundred. -/

/-- The nearest integer to `a / b`, to the even one of two equally near. -/
def round_half_even (a b : Nat) : Nat :=
  let q := a / b
  let r := a % b
  if 2 * r < b then q else if b < 2 * r then q + 1 else q + q % 2

/-- `progress_percent`, on exact numbers: `round(_, 2)` of the quotient times 100. -/
def ReplayJob.progress_percent (job : ReplayJob) : Rat :=
  if 0 < job.events_total then
    (round_half_even (job.events_processed * 10000) job.events_total : Rat) / 100
  else 0

/-- Rounding does not go past an integer. This is how a percentage of at most a hundred stays
one after it is rounded to two digits. -/
theorem round_half_even_le {a b n : Nat} (h : a ≤ n * b) : round_half_even a b ≤ n := by
  rcases Nat.eq_zero_or_pos b with rfl | hb
  · obtain rfl : a = 0 := by omega
    exact Nat.zero_le n
  have hq : a / b ≤ n := Nat.div_le_of_le_mul (by rwa [Nat.mul_comm] at h)
  have hdiv := Nat.div_add_mod a b
  rcases Nat.eq_or_lt_of_le hq with heq | hlt
  · -- `a` is `n * b`, and nothing is left to round up
    have hr : a % b = 0 := by
      rw [heq, Nat.mul_comm b n] at hdiv
      omega
    simp only [round_half_even, hr, heq]
    rw [if_pos (by omega)]
  · simp only [round_half_even]
    split_ifs <;> omega

/-- A job that has processed no more than its total is between 0 and 100 percent. -/
theorem ReplayJob.progress_percent_le {job : ReplayJob}
    (h : 0 < job.events_total → job.events_processed ≤ job.events_total) :
    0 ≤ job.progress_percent ∧ job.progress_percent ≤ 100 := by
  unfold ReplayJob.progress_percent
  split
  · rename_i htotal
    have hround : round_half_even (job.events_processed * 10000) job.events_total ≤ 10000 :=
      round_half_even_le (by rw [Nat.mul_comm]; exact Nat.mul_le_mul_left _ (h htotal))
    have hcast : (round_half_even (job.events_processed * 10000) job.events_total : Rat) ≤ 10000 := by
      exact_mod_cast hround
    refine ⟨div_nonneg (Nat.cast_nonneg _) (by norm_num), ?_⟩
    rw [div_le_iff₀ (by norm_num)]
    linarith
  · exact ⟨le_refl 0, by norm_num⟩

/-! ## The total of a job

The total is counted once, by the first transaction of a worker. Over sources that do not change
every count gives the same, so it makes no difference which worker's setup commits. -/

/-- The contents of the sources do not change. -/
def FixedSources (_ : Sys) : Action → Prop
  | .xadd _ => False
  | .produce _ _ => False
  | _ => True

/-- The total of the row is what its source counts, if it is set; and a setup transaction in
flight has counted its source. The count is made before the transaction reads the row, so the
two are in step only because the sources do not change. -/
structure Totalled (w : Window) (s : Sys) : Prop where
  row : s.row.events_total = 0 ∨ ∃ source, s.row.replay_source = some source ∧
    s.row.events_total = count_events w s.world source
  setup : ∀ v base source count, (s.workers v).phase = .writing base (.setup source count) →
    count = count_events w s.world source

/-- Only the setup transaction writes the total and the source. It writes the total when it
finds 0 there, which a source that counts 0 leaves as it is. -/
theorem WorkerTx.body_total {tx : WorkerTx} (h : ∀ source count, tx ≠ .setup source count)
    (job : ReplayJob) : (tx.body job).events_total = job.events_total ∧
      (tx.body job).replay_source = job.replay_source := by
  cases tx with
  | setup source count => exact absurd rfl (h source count)
  | progress stream event was_dup now =>
      simp only [WorkerTx.body, update_checkpoint_events_total, update_checkpoint_replay_source]
      split <;> exact ⟨rfl, rfl⟩
  | event_failed _ _ _ | checkpoint _ _ | complete _ _ | fail _ => exact ⟨rfl, rfl⟩

section

variable {cfg : Config} {w : Window} {s t : Sys} {a : Action}

/-- Sources whose contents do not change are the same after a step. -/
theorem world_of_fixed (hfixed : FixedSources s a) (hs : step cfg s a = some t) :
    t.world = s.world := by
  cases step_took hs with
  | xadd e => exact absurd hfixed id
  | produce p m => exact absurd hfixed id
  | _ => rfl

/-- A step keeps the total of the row in line with its source. -/
theorem Totalled.row_step (h : Totalled w s) (haccounts : Accounts w s)
    (hs : step cfg s a = some t) :
    t.row.events_total = 0 ∨ ∃ source, t.row.replay_source = some source ∧
      t.row.events_total = count_events w s.world source := by
  rcases row_cases hs with hrow | ⟨i, tx, -, htx, hrow⟩ | ⟨v, input, base, tx, -, hph, hrow⟩ |
    ⟨v, -, -, hrow⟩ | ⟨v, -, hrow⟩
  · rw [hrow]
    exact h.row
  · obtain ⟨hchange, -⟩ := ApiOp.apply_spec tx.accepted
    rw [hrow]
    simp only [flush, hchange.events_total, hchange.replay_source, written_self]
    exact h.row
  · have hphase := haccounts.workers v
    rw [hph] at hphase
    by_cases hsetup : ∃ source count, tx = .setup source count
    · obtain ⟨source, count, rfl⟩ := hsetup
      have hcount := h.setup v base source count hph
      have hsource : t.row.replay_source = some source := by
        rw [hrow]
        exact (SameData.flush hphase.1 _).source
      -- the total is written if it was 0, and a total that was set is of this source
      have htotal : t.row.events_total = count ∨ t.row.events_total = s.row.events_total := by
        rw [hrow]
        rcases written_cases base.events_total
          ((WorkerTx.setup source count).body base).events_total s.row.events_total with hw | hw
        · by_cases hzero : base.events_total = 0
          · refine Or.inl (hw.trans ?_)
            simp only [WorkerTx.body, hzero, if_true]
          · right
            simp only [flush, WorkerTx.body, hzero, if_false, written_self]
        · exact Or.inr hw
      rcases htotal with htotal | htotal
      · exact Or.inr ⟨source, hsource, htotal.trans hcount⟩
      · rcases h.row with hzero | ⟨source', hsource', hrow'⟩
        · exact Or.inl (htotal.trans hzero)
        · rcases hphase.2 with hnone | hsome
          · rw [hnone] at hsource'
            cases hsource'
          · rw [hsource', Option.some.injEq] at hsome
            subst hsome
            exact Or.inr ⟨source', hsource, htotal.trans hrow'⟩
    · have hother : ∀ source count, tx ≠ .setup source count :=
        fun source count heq => hsetup ⟨source, count, heq⟩
      obtain ⟨htotal, hsource⟩ := WorkerTx.body_total hother base
      rw [hrow]
      simp only [flush, htotal, hsource, written_self]
      exact h.row
  · rw [hrow]
    exact h.row
  · rw [hrow, renewed_row]
    split <;> exact h.row

/-- A setup transaction that a step of a worker begins has counted its source. -/
theorem Worker.go_setup {wk : Worker} {now : Nat} {row base : ReplayJob} {world : World}
    {input : Input} {m : Move} {source : SourceName} {count : Nat}
    (hm : wk.go cfg now row world input = some m)
    (hph : m.worker.phase = .writing base (.setup source count)) :
    count = count_events cfg.window world source := by
  cases Worker.went hm with
  | set_up job source' hfetched hsource =>
      simp only [Worker.to_phase, Phase.writing.injEq, WorkerTx.setup.injEq] at hph
      obtain ⟨-, rfl, rfl⟩ := hph
      rfl
  | committed base' tx hwriting => exact absurd hph Worker.after_commit_not_writing
  | _ => cases hph

/-- **One step** keeps the totals in line. Overlapping setup transactions write the same total,
as they have counted the same contents. -/
theorem Totalled.step (h : Totalled cfg.window s) (haccounts : Accounts cfg.window s)
    (hfixed : FixedSources s a) (hs : Job.step cfg s a = some t) : Totalled cfg.window t := by
  have hworld := world_of_fixed hfixed hs
  refine ⟨?_, fun v base source count hph => ?_⟩
  · rw [hworld]
    exact h.row_step haccounts hs
  · rw [hworld]
    refine phase_holds (Q := fun phase => phase = .writing base (.setup source count) →
      count = count_events cfg.window s.world source) ?_ ?_ ?_ hs (h.setup v base source count)
      ?_ hph
    · rintro ⟨⟩
    · rintro ⟨⟩
    · rintro error ⟨⟩
    · rintro input m - hm - hph
      exact Worker.go_setup hm hph

/-- The Redis count is the number of entries in the window. -/
theorem count_events_redis (world : World) (w : Window) :
    count_events w world .redis = (world.window_ids w .redis).length := by
  rw [count_events, redis_count_events, World.window_ids, List.length_map, xrange]
  refine congrArg List.length (List.filter_congr fun e _ => ?_)
  rw [Bool.eq_iff_iff, decide_eq_true_eq]
  simp [RangeStart.admits, Window.contains]

/-- **A job over Redis** has processed no more than its total: the accounting says that it
processed what it covers of the window, and the total is all of the window. -/
theorem Totalled.processed_le (h : Totalled w s) (haccounts : Accounts w s)
    (hredis : s.row.replay_source = some .redis) (hpos : 0 < s.row.events_total) :
    s.row.events_processed ≤ s.row.events_total := by
  rcases h.row with hzero | ⟨source, hsource, htotal⟩
  · omega
  · rw [hredis, Option.some.injEq] at hsource
    subst hsource
    have hcount := haccounts.accounted.1 .redis (Or.inr hredis)
    have hle : ((s.world.window_ids w .redis).filter s.row.covers).length
        ≤ (s.world.window_ids w .redis).length := List.length_filter_le ..
    rw [htotal, count_events_redis]
    omega

/-- A run with one worker at a time over sources that do not change keeps the totals in
line. -/
theorem totalled_of_run {speed_factor : Rat} {world : World} {clock : Nat}
    {tr : List (Sys × Action)} (hsorted : world.Sorted)
    (hrun : Run (Job.step cfg) (Sys.initial speed_factor world clock) tr s)
    (halone : StepsMeet AcquiredAlone tr) (hfixed : StepsMeet FixedSources tr) :
    Accounts cfg.window s ∧ Totalled cfg.window s := by
  refine hrun.invariant (C := fun s a => AcquiredAlone s a ∧ FixedSources s a)
    (I := fun s => Accounts cfg.window s ∧ Totalled cfg.window s) ?_
    ⟨.initial hsorted _, Or.inl rfl, fun v base source count hph => by cases hph⟩
    (fun p hp => ⟨halone p hp, hfixed p hp⟩)
  rintro s a t ⟨haccounts, htotalled⟩ ⟨halone, hfixed⟩ hs
  refine ⟨haccounts.step halone ?_ ?_ hs, htotalled.step haccounts hfixed hs⟩
  · cases a <;> trivial
  · cases a <;> trivial

end

/-- **Counting and streaming.** Over sources whose contents do not change: the Redis count is
the number of events the generator yields. The Kafka count is the number of those that are
before `end_ms` in a partition with a message at or after it, so it is never larger, and it
is the number of all exactly when all are such. A job over Redis that one worker at a time
executes never has processed more than its total, and its progress is between 0 and 100. -/
theorem count_events_agrees (cfg : Config) :
    (∀ (stream : List RedisEntry) (st : RedisStream)
        (tr : List (RedisWindow.State × RedisWindow.Action)) (s : RedisWindow.State),
      RedisSorted stream → RedisStream.open none = .ok st →
      Run (RedisWindow.step cfg.window) (RedisWindow.State.initial stream 0 st) tr s →
      StepsMeet RedisWindow.Fixed tr → s.returned = true →
      redis_count_events stream cfg.window = s.yielded.length) ∧
    (∀ (topic : Topic) (position : Nat → Nat) (st : KafkaStream)
        (tr : List (KafkaWindow.State × KafkaWindow.Action)) (s : KafkaWindow.State),
      KafkaSorted topic → KafkaStream.open topic position none = .ok st →
      Run (KafkaWindow.step cfg.window) (KafkaWindow.State.initial topic st) tr s →
      StepsMeet KafkaWindow.Fixed tr → s.returned = true →
      kafka_count_events topic cfg.window = s.yielded.countP (KafkaWindow.counted cfg.window topic) ∧
      kafka_count_events topic cfg.window ≤ s.yielded.length ∧
      (kafka_count_events topic cfg.window = s.yielded.length ↔
        ∀ ev ∈ s.yielded, KafkaWindow.counted cfg.window topic ev = true)) ∧
    (∀ (speed_factor : Rat) (world : World) (clock : Nat) (tr : List (Sys × Action)) (s : Sys),
      world.Sorted → Run (step cfg) (Sys.initial speed_factor world clock) tr s →
      StepsMeet AcquiredAlone tr → StepsMeet FixedSources tr →
      s.row.replay_source = some .redis →
      (0 < s.row.events_total → s.row.events_processed ≤ s.row.events_total) ∧
      0 ≤ s.row.progress_percent ∧ s.row.progress_percent ≤ 100) := by
  refine ⟨?_, ?_, ?_⟩
  · intro stream st tr s hsorted hopen hrun hfixed hret
    exact (RedisWindow.length_yielded_eq_count_events hopen hsorted hrun hfixed hret).symm
  · intro topic position st tr s hsorted hopen hrun hfixed hret
    have hcount := KafkaWindow.countP_yielded_eq_count_events hopen hsorted hrun hfixed hret
    rw [← hcount]
    exact ⟨rfl, List.countP_le_length, List.countP_eq_length⟩
  · intro speed_factor world clock tr s hsorted hrun halone hfixed hredis
    obtain ⟨haccounts, htotalled⟩ := totalled_of_run hsorted hrun halone hfixed
    have hle := htotalled.processed_le haccounts hredis
    exact ⟨hle, ReplayJob.progress_percent_le hle⟩

/-- A window of one stored message at its beginning and one at its end. -/
def boundary_topic : Topic := [[⟨10, sampleRecord "a"⟩, ⟨20, sampleRecord "b"⟩]]

/-- Two entries in Redis, and a job that has replayed the first of them; and the Kafka source
that counts the first of two messages alone. -/
theorem count_events_agrees_two_events :
    redis_count_events twoEntries recent_config.window = 2 ∧
    (∃ s : KafkaWindow.State, s.returned = true ∧
      kafka_count_events boundary_topic recent_config.window = 1 ∧
      s.yielded.countP (KafkaWindow.counted recent_config.window boundary_topic) = 1 ∧
      s.yielded.length = 2) ∧
    ∃ s : Sys, s.row.events_processed = 1 ∧ s.row.events_total = 2 ∧
      s.row.progress_percent ≤ 100 := by
  obtain ⟨hredis, hkafka, hjob⟩ := count_events_agrees recent_config
  refine ⟨?_, ?_, ?_⟩
  · have hrun : ∃ tr s, Run (RedisWindow.step recent_config.window)
        (RedisWindow.State.initial twoEntries 0
          { cursor := none, resumed := false, batch := none, seen := 0 }) tr s ∧
        StepsMeet RedisWindow.Fixed tr ∧ (s.returned = true ∧ s.yielded.length = 2) :=
      exists_run_meeting_of_exec [.pull, .pull, .pull, .pull] (by decide) (by decide)
    obtain ⟨tr, s, hrun, hfixed, hret, hlength⟩ := hrun
    rw [hredis twoEntries _ tr s redisSorted_twoEntries rfl hrun hfixed hret, hlength]
  · have hrun : ∃ tr s, Run (KafkaWindow.step recent_config.window)
        (KafkaWindow.State.initial boundary_topic
          { offsets := Dict.empty, position := fun _ => 0, phase := .opened }) tr s ∧
        StepsMeet KafkaWindow.Fixed tr ∧ (s.returned = true ∧ s.yielded.length = 2) :=
      exists_run_meeting_of_exec [.pull 0, .pull 0, .pull 0, .pull 0, .pull 0, .pull 0]
        (by decide) (by decide)
    obtain ⟨tr, s, hrun, hfixed, hret, hlength⟩ := hrun
    have hcount := (hkafka boundary_topic (fun _ => 0) _ tr s (kafkaSorted_of_logs (by decide)) rfl
      hrun hfixed hret).1
    exact ⟨s, hret, by decide, hcount.symm, hlength⟩
  · have hrun : ∃ tr s, Run (step recent_config) (Sys.initial 1 ⟨twoEntries, [[]]⟩ 30) tr s ∧
        StepsMeet (fun s a => AcquiredAlone s a ∧ FixedSources s a) tr ∧
        s.row.replay_source = some .redis ∧ s.row.events_processed = 1 ∧ s.row.events_total = 2 :=
      exists_run_meeting_of_exec
        [.api_read 0 .start, .api_commit 0, .boot 0, .acquire 0,
          .go 0 {}, .go 0 {}, .go 0 {}, .go 0 {}, .go 0 {}, .go 0 {}, .go 0 {}, .go 0 {},
          .go 0 { success := true }, .go 0 {}, .go 0 {}]
        (ExecMeets.and (execMeets_alone (w := 0) (fun _ _ => rfl) (by simp))
          (.of_forall (by simp [FixedSources])))
        (by decide)
    obtain ⟨tr, s, hrun, hC, hsource, hone, htwo⟩ := hrun
    exact ⟨s, hone, htwo, (hjob 1 ⟨twoEntries, [[]]⟩ 30 tr s
      ⟨redisSorted_twoEntries, kafkaSorted_of_logs (by decide)⟩ hrun (fun p hp => (hC p hp).1)
      (fun p hp => (hC p hp).2) hsource).2.2⟩

/-- The message at `end_ms` is streamed and not counted, so a job over Kafka goes to 200
percent. -/
theorem kafka_progress_beyond_100 :
    kafka_count_events boundary_topic short_config.window = 1 ∧
    ∃ tr s, Run (step short_config) (Sys.initial 1 ⟨[], boundary_topic⟩ 0) tr s ∧
      StepsMeet (fun s a => AcquiredAlone s a ∧ FixedSources s a) tr ∧
      s.row.status = .completed ∧ s.row.events_total = 1 ∧ s.row.events_processed = 2 ∧
      s.row.progress_percent = 200 := by
  have hrun : ∃ tr s, Run (step short_config) (Sys.initial 1 ⟨[], boundary_topic⟩ 0) tr s ∧
      StepsMeet (fun s a => AcquiredAlone s a ∧ FixedSources s a) tr ∧
      s.row.status = .completed ∧ s.row.events_total = 1 ∧ s.row.events_processed = 2 :=
    exists_run_meeting_of_exec
      [.api_read 0 .start, .api_commit 0, .boot 0, .acquire 0,
        .go 0 {}, .go 0 {}, .go 0 {}, .go 0 {}, .go 0 {}, .go 0 {}, .go 0 {}, .go 0 {}, .go 0 {},
        .go 0 { success := true }, .go 0 {}, .go 0 {}, .go 0 {}, .go 0 {}, .go 0 {}, .go 0 {},
        .go 0 {}, .go 0 { success := true }, .go 0 {}, .go 0 {}, .go 0 {}, .go 0 {}, .go 0 {}]
      (ExecMeets.and (execMeets_alone (w := 0) (fun _ _ => rfl) (by simp))
        (.of_forall (by simp [FixedSources])))
      (by decide)
  obtain ⟨tr, s, hrun, hC, hstatus, htotal, hprocessed⟩ := hrun
  refine ⟨by decide, tr, s, hrun, hC, hstatus, htotal, hprocessed, ?_⟩
  rw [ReplayJob.progress_percent, htotal, hprocessed]
  norm_num [round_half_even]

end WalStream.Job
