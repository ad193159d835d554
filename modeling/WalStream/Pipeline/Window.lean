/-
The window of a job and the places of its entries in the history.

A source table performs a history of changes, and the window of a replay source holds their
records: each at least once, under ids that increase, and in an order that gets through the
history. Here is what such a window is, what the target is to which changes of the history have
been applied, and what the worker of a job over the window has in hand.
-/
import WalStream.Ingest.Sequence
import WalStream.Job.Accounting
import WalStream.Replayer.Repetition
import WalStream.Replayer.Server
import WalStream.Source.History

set_option autoImplicit false

namespace WalStream.Replication

open Lib Source Replayer Ingest

variable {n : Nat} {V : Fin n → Type} {σ : TableSchema V}

/-! ## The target

A target to which changes of the history have been applied, in whatever order and number. The
list of their places is all that has to be known of how this came about. -/

section

variable [∀ i, DecidableEq (V i)]

/-- Changes of the history have been applied to `t`, whatever their commit times, in whatever
order and number. It is all that is asked of a target at the start: whoever has applied changes
to it before may have stopped anywhere. -/
structure Partly (cat : Catalog V) (t : Table σ) (records : List ChangeRecord) (db : Table σ)
    (played : List Nat) : Prop where
  in_range : ∀ k ∈ played, k < records.length
  db_eq : db = (apply_all cat t (replayed records played)).1

variable {cat : Catalog V} {t db : Table σ} {records : List ChangeRecord} {played : List Nat}

/-- A statement for another table leaves the table alone. -/
theorem apply_of_other {event : ChangeRecord} (h : cat.table event.table = false) :
    (apply cat db event).1 = db := by
  have hrun : ∀ statement : Option Statement, (∀ s ∈ statement, execute cat db s = none) →
      (run cat db statement).1 = db := by
    intro statement hs
    cases statement with
    | none => rfl
    | some statement => rw [run, hs statement rfl]
  unfold apply
  repeat' split
  · refine hrun _ fun s hs => ?_
    simp only [apply_insert, Option.mem_def, Option.ite_none_left_eq_some, Option.some.injEq] at hs
    rw [← hs.2]
    simp [execute, h]
  · refine hrun _ fun s hs => ?_
    simp only [apply_update, Option.mem_def, Option.ite_none_left_eq_some, Option.some.injEq] at hs
    rw [← hs.2]
    simp [execute, h]
  · refine hrun _ fun s hs => ?_
    simp only [apply_delete, Option.mem_def, Option.ite_none_left_eq_some, Option.some.injEq] at hs
    rw [← hs.2]
    simp [execute, h]
  · refine hrun _ fun s hs => ?_
    simp only [apply_truncate, Option.mem_def, Option.some.injEq] at hs
    rw [← hs]
    simp [execute, h]
  · rfl

/-- One record more, applied to what the others have left. -/
theorem apply_all_append (cat : Catalog V) (t : Table σ) (events : List ChangeRecord)
    (event : ChangeRecord) :
    (apply_all cat t (events ++ [event])).1 = (apply cat (apply_all cat t events).1 event).1 := by
  induction events generalizing t with
  | nil => rfl
  | cons e events ih => exact ih _

/-- The applier does not read the commit time. -/
theorem apply_of_timeless {event event' : ChangeRecord} (h : timeless event = timeless event') :
    Replayer.apply cat db event = Replayer.apply cat db event' := by
  have htimeless : ∀ e, Replayer.apply cat db (timeless e) = Replayer.apply cat db e := fun _ => rfl
  rw [← htimeless, h, htimeless]

/-- **One more change.** The statement of the record is one for the change, whatever commit time
the record has got. -/
theorem Partly.apply (h : Partly cat t records db played) {k : Nat} (hk : k < records.length)
    {event : ChangeRecord} (hevent : timeless event = timeless records[k]) :
    Partly cat t records (Replayer.apply cat db event).1 (played ++ [k]) := by
  refine ⟨fun j hj => ?_, ?_⟩
  · rcases List.mem_append.mp hj with hj | hj
    · exact h.in_range j hj
    · rwa [List.mem_singleton.mp hj]
  · rw [replayed_snoc hk, apply_all_append, ← h.db_eq, apply_of_timeless hevent]

end

/-! ## What the worker has in hand

The event of a worker on its way from the generator to the checkpoint: in hand, awaited,
answered, recorded. Each stage is entered by one step. -/

/-- The event of a call that waits for its answer. -/
def awaited : Job.Phase → Option ReplayEvent
  | .in_hand _ _ event (.awaiting _) => some event
  | _ => none

/-- The event the generator yielded last, until it is recorded. -/
def hand : Job.Phase → Option ReplayEvent
  | .in_hand _ _ event _ => some event
  | .writing _ (.progress _ event _ _) => some event
  | _ => none

/-- The event whose call was answered, until it is recorded. -/
def answered : Job.Phase → Option ReplayEvent
  | .in_hand _ _ event (.acked _) => some event
  | .writing _ (.progress _ event _ _) => some event
  | _ => none

/-- A worker waits for a call in one stage only, so the event it waits for tells all of its
phase but the job and the generator. -/
theorem awaited_eq_some_iff {phase : Job.Phase} {event : ReplayEvent} :
    awaited phase = some event ↔
      ∃ job stream attempt, phase = .in_hand job stream event (.awaiting attempt) := by
  constructor
  · intro h
    unfold awaited at h
    split at h
    · cases h
      exact ⟨_, _, _, rfl⟩
    · cases h
  · rintro ⟨job, stream, attempt, rfl⟩
    rfl

section

variable {cfg : Job.Config} {s t : Job.Sys} {a : Job.Action} {own : String → Bool}
  {source : SourceName} {hist : List (MessageId × ChangeRecord)}

/-- The history is what the window of the source holds of the tables. -/
def Holds (w : Window) (own : String → Bool) (source : SourceName)
    (hist : List (MessageId × ChangeRecord)) (world : World) : Prop :=
  ∀ m r, (m, r) ∈ hist ↔
    m.source = source ∧ world.InWindow w m ∧ world.Has m r ∧ own r.table = true

/-- A window whose contents are fixed holds the same history after every step. -/
theorem Holds.step (h : Holds cfg.window own source hist s.world) (hsorted : s.world.Sorted)
    (hfixed : Job.FixedWindow cfg.window s a) (hs : Job.step cfg s a = some t) :
    Holds cfg.window own source hist t.world := by
  obtain ⟨hg, hsorted'⟩ := Job.world_grows hs
  intro m r
  rw [h m r, Job.inWindow_of_fixed hfixed hs]
  refine and_congr_right fun _ => and_congr_right fun hin => and_congr_left fun _ => ?_
  constructor
  · exact fun hhas => hhas.grow hg
  · intro hhas
    obtain ⟨r', hr'⟩ := hin.exists_record
    rwa [hhas.eq (hsorted' hsorted) (hr'.grow hg)]

/-- What a worker has in hand is stored as it is. -/
def Genuine (s : Job.Sys) : Prop :=
  ∀ v event, hand (s.workers v).phase = some event → s.world.Has event.message_id event.payload

/-- A commit leaves the worker with nothing in hand: what it had is recorded by the same
transaction, or it had nothing. -/
theorem hand_after_commit {wk : Job.Worker} {tx : Job.WorkerTx} {job : Job.ReplayJob}
    {world : World} {position : Nat → Nat} :
    hand (wk.after_commit tx job world position).phase = none := by
  cases tx with
  | setup source count =>
      simp only [Job.Worker.after_commit]
      split <;> rfl
  | _ => rfl

/-- An event comes into a worker's hands by a `yield`, and what is yielded is the entry that is
stored under its id. -/
theorem Genuine.step (h : Genuine s) (hsafe : Job.SafeSys cfg.window s)
    (hs : Job.step cfg s a = some t) : Genuine t := by
  intro v
  refine Job.phase_holds
    (Q := fun phase => ∀ event, hand phase = some event →
      t.world.Has event.message_id event.payload)
    (fun _ h' => by cases h') (fun _ h' => by cases h') (fun _ _ h' => by cases h') hs
    (fun event hevent => (h v event hevent).grow (Job.world_grows hs).1) ?_
  rintro input m - hm rfl event hevent
  have hkeep : ∀ {job stream stage}, (s.workers v).phase = .in_hand job stream event stage →
      s.world.Has event.message_id event.payload := by
    intro job stream stage hph
    exact h v event (by rw [hph]; rfl)
  cases Job.Worker.went hm with
  | committed base tx =>
      rw [hand_after_commit] at hevent
      cases hevent
  -- an event comes into a worker's hands from its generator, and nowhere else
  | got_event job stream stream' event' hph hstep =>
      have hv := hsafe.workers v
      rw [hph] at hv
      cases hevent
      exact hv.2.good.yield_has hsafe.sorted hstep
  | still_running job stream event' hph | may_send job stream event' hph
  | sent job stream event' attempt hph | answered job stream event' attempt hph
  | retried job stream event' attempt hph | gave_up job stream event' attempt hph
  | records_event job stream event' was_dup hph =>
      cases hevent
      exact hkeep hph
  | _ => cases hevent

/-- Once a job has a source it keeps it. -/
theorem replay_source_stable (h : Job.Accounts cfg.window s) (hs : Job.step cfg s a = some t)
    {x : SourceName} (hsource : s.row.replay_source = some x) : t.row.replay_source = some x := by
  rcases Job.row_cases hs with hrow | ⟨i, tx, _, _, hrow⟩ | ⟨v, input, base, tx, _, hph, hrow⟩ |
    ⟨v, _, _, hrow⟩ | ⟨v, _, hrow⟩
  · rw [hrow, hsource]
  · rw [hrow]
    exact (Job.SameData.flush_api (Job.ApiOp.apply_spec tx.accepted).1 s.row).source.trans hsource
  · have hv := h.workers v
    rw [hph] at hv
    obtain ⟨hsame, htx⟩ := hv
    rw [hrow, (Job.SameData.flush hsame (tx.body base)).source]
    cases tx with
    | setup source count =>
        rcases htx with hnone | hsome
        · rw [hsource] at hnone
          cases hnone
        · exact hsome.symm.trans hsource
    | progress stream event was_dup now =>
        rw [(Job.progress_positions hsame stream event was_dup now).source,
          Job.update_checkpoint_replay_source, hsource]
    | _ => exact hsame.source.trans hsource
  · rw [hrow]
    exact hsource
  · rw [hrow, Job.renewed_row]
    split <;> exact hsource

/-- What comes before a covered event is covered. -/
theorem covers_of_before {job : Job.ReplayJob} {m m' : MessageId} (hbefore : m.before m')
    (h : job.covers m' = true) : job.covers m = true := by
  cases m with
  | redis id =>
      cases m' with
      | redis id' =>
          obtain ⟨c, hlast, hle⟩ := Job.covers_redis_iff.mp h
          exact Job.covers_redis_iff.mpr
            ⟨c, hlast, StreamId.le_trans (StreamId.le_of_lt hbefore) hle⟩
      | kafka p o => exact hbefore.elim
  | kafka p o =>
      cases m' with
      | redis id => exact hbefore.elim
      | kafka q o' =>
          obtain ⟨rfl, hlt⟩ := hbefore
          obtain ⟨offsets, c, hcp, hget, hle⟩ := Job.covers_kafka_iff.mp h
          exact Job.covers_kafka_iff.mpr
            ⟨offsets, c, hcp, hget, Nat.le_trans (Nat.le_of_lt hlt) hle⟩

/-- The checkpoint is advanced to an event that has been answered. The transaction that does it
was begun with the answer, so nothing is recorded that was not answered for. -/
theorem advanced_cases (hs : Job.step cfg s a = some t) {m : MessageId} (hm : m ∈ t.advanced) :
    m ∈ s.advanced ∨
      ∃ v event, answered (s.workers v).phase = some event ∧ event.message_id = m := by
  cases Job.step_took hs with
  | go v input move hgo =>
      rcases List.mem_append.mp hm with hm | hm
      · exact Or.inl hm
      · cases Job.Worker.went hgo with
        | committed base tx hph =>
            cases tx with
            | progress stream event was_dup now =>
                obtain rfl := Option.some.inj (Option.mem_toList.mp hm)
                exact Or.inr ⟨v, event, by rw [hph]; rfl, rfl⟩
            | _ => cases hm
        | _ => cases hm
  | _ => exact Or.inl hm

/-- What is recorded stays so. -/
theorem advanced_grows (hs : Job.step cfg s a = some t) {m : MessageId} (hm : m ∈ s.advanced) :
    m ∈ t.advanced := by
  cases Job.step_took hs with
  | go v input move hgo => exact List.mem_append_left _ hm
  | _ => exact hm

/-- An event counts as answered after a step if it did before, or the step is the answer. The
results on the target are about the answer, and this is how they come to hold of what is
recorded. -/
theorem answered_cases (hs : Job.step cfg s a = some t) {v : Nat} {event : ReplayEvent}
    (h : answered (t.workers v).phase = some event) :
    answered (s.workers v).phase = some event ∨
      ∃ input, a = .go v input ∧ awaited (s.workers v).phase = some event ∧
        (input.success || input.was_duplicate) = true := by
  refine Job.phase_holds (Q := fun phase => answered phase = some event → _) ?_ ?_ ?_ hs Or.inl
    ?_ h
  · rintro ⟨⟩
  · rintro ⟨⟩
  · rintro error ⟨⟩
  · rintro input m ha hm rfl hevent
    cases Job.Worker.went hm with
    | committed base tx hph =>
        cases tx with
        | setup source count =>
            simp only [Job.Worker.after_commit] at hevent
            split at hevent <;> cases hevent
        | _ => cases hevent
    | answered job stream event' attempt hph hanswer =>
        cases hevent
        exact Or.inr ⟨input, ha, by rw [hph]; rfl, hanswer⟩
    | records_event job stream event' was_dup hph =>
        cases hevent
        exact Or.inl (by rw [hph]; rfl)
    | _ => cases hevent

/-- A worker that waits for a call has waited before, or has just made it. -/
theorem awaited_cases (hs : Job.step cfg s a = some t) {v : Nat} {event : ReplayEvent}
    (h : awaited (t.workers v).phase = some event) :
    awaited (s.workers v).phase = some event ∨ ∃ input job stream attempt, a = .go v input ∧
      (s.workers v).phase = .in_hand job stream event (.ready attempt) := by
  refine Job.phase_holds (Q := fun phase => awaited phase = some event → _) ?_ ?_ ?_ hs Or.inl
    ?_ h
  · rintro ⟨⟩
  · rintro ⟨⟩
  · rintro error ⟨⟩
  · rintro input m ha hm rfl hevent
    cases Job.Worker.went hm with
    | committed base tx hph =>
        cases tx with
        | setup source count =>
            simp only [Job.Worker.after_commit] at hevent
            split at hevent <;> cases hevent
        | _ => cases hevent
    | sent job stream event' attempt hph =>
        cases hevent
        exact Or.inr ⟨input, job, stream, attempt, ha, hph⟩
    | _ => cases hevent

/-- The job reads this source, or has not chosen one. -/
def OnSource (source : SourceName) (s : Job.Sys) : Prop :=
  s.row.replay_source = none ∨ s.row.replay_source = some source

/-- The job reads one source from its first transaction on. Backwards, because what is known is
how the run ends. -/
theorem onSource_of_step (h : Job.Accounts cfg.window s) (hs : Job.step cfg s a = some t)
    (hon : OnSource source t) : OnSource source s := by
  cases hsource : s.row.replay_source with
  | none => exact Or.inl hsource
  | some x =>
      have hstable := replay_source_stable h hs hsource
      rcases hon with hnone | hsome
      · rw [hstable] at hnone
        cases hnone
      · rw [hstable] at hsome
        exact Or.inr (hsource.trans hsome)

end

/-! ## Places in the history

The window as a list of numbers. What is to come of it is compared with the mark of what has
been played, which is how `Lib.Redo` enters. -/

/-- The ids of a window, each with the place of its change in the history. -/
def numbered (hist : List (MessageId × ChangeRecord)) (order : List Nat) : List (MessageId × Nat) :=
  (hist.map Prod.fst).zip order

section

variable {ids : List MessageId} {m m' : MessageId} {i j k : Nat} {played order : List Nat}
  {hist : List (MessageId × ChangeRecord)}

/-- No id comes before itself. -/
theorem before_irrefl (m : MessageId) : ¬ m.before m := by
  cases m with
  | redis id => exact StreamId.lt_irrefl id
  | kafka p o => exact fun h => Nat.lt_irrefl o h.2

/-- Ids that increase along the window: places in order have ids in order. -/
theorem before_of_lt (hordered : ids.Pairwise MessageId.before) (hm : ids[i]? = some m)
    (hm' : ids[j]? = some m') (hij : i < j) : m.before m' := by
  obtain ⟨hi, rfl⟩ := List.getElem?_eq_some_iff.mp hm
  obtain ⟨hj, rfl⟩ := List.getElem?_eq_some_iff.mp hm'
  exact List.pairwise_iff_getElem.mp hordered i j hi hj hij

/-- An id is at one place. -/
theorem eq_of_before (hordered : ids.Pairwise MessageId.before) (hi : ids[i]? = some m)
    (hj : ids[j]? = some m) : i = j := by
  rcases Nat.lt_trichotomy i j with hlt | heq | hlt
  · exact absurd (before_of_lt hordered hi hj hlt) (before_irrefl m)
  · exact heq
  · exact absurd (before_of_lt hordered hj hi hlt) (before_irrefl m)

/-- What is looked up for the id of an entry is the place of its change. -/
theorem lookup_numbered (hordered : (hist.map Prod.fst).Pairwise MessageId.before)
    (hi : (hist.map Prod.fst)[i]? = some m) (hk : order[i]? = some k) :
    (numbered hist order).lookup m = some k := by
  have hget : (numbered hist order)[i]? = some (m, k) := List.getElem?_zip_eq_some.mpr ⟨hi, hk⟩
  obtain ⟨hlt, hget⟩ := List.getElem?_eq_some_iff.mp hget
  refine List.lookup_eq_some_iff.mpr ⟨(numbered hist order).take i,
    (numbered hist order).drop (i + 1), ?_, fun p hp => ?_⟩
  · rw [← hget, List.cons_getElem_drop_succ, List.take_append_drop]
  · obtain ⟨j, hj, rfl⟩ := List.mem_iff_getElem.mp hp
    rw [List.length_take] at hj
    rw [bne_iff_ne, List.getElem_take]
    rintro rfl
    have hjlt : j < (numbered hist order).length := by omega
    have hget' : (numbered hist order)[j]? = some (numbered hist order)[j] :=
      List.getElem?_eq_getElem hjlt
    have := eq_of_before hordered hi (List.getElem?_zip_eq_some.mp hget').1
    omega

/-- An id that is not in the window has no place in the history. -/
theorem lookup_numbered_of_not_mem (h : m ∉ hist.map Prod.fst) :
    (numbered hist order).lookup m = none := by
  refine List.lookup_eq_none_iff.mpr fun p hp => ?_
  rw [bne_iff_ne]
  rintro rfl
  exact h (List.of_mem_zip hp).1

/-- From the entries after this one, what is left of the window gets the target through the
history. This is the form in which the idea of `Lib.Redo` is carried along a run: the mark of
what was played is such that the rest of the order leads to the end. -/
def Settled (hist : List (MessageId × ChangeRecord)) (order : List Nat) (played : List Nat)
    (m : MessageId) : Prop :=
  ∀ i, (hist.map Prod.fst)[i]? = some m → Leads advance order 0 (i + 1) (mark played)

/-- The change of the entry is behind the mark, so playing it again makes no difference to where
the rest of the window leads. -/
def Behind (hist : List (MessageId × ChangeRecord)) (order : List Nat) (played : List Nat)
    (m : MessageId) : Prop :=
  ∀ k, (numbered hist order).lookup m = some k → k < mark played

end

/-! ## The window

What the replication results assume of a window. It holds of the windows that the ingestor
leaves, by `Pipeline.Capture`. -/

/-- What is known of the window: its entries are changes of the history, in turn and in an order
that gets through it, under ids that increase. -/
structure WindowOf (records : List ChangeRecord) (hist : List (MessageId × ChangeRecord))
    (order : List Nat) : Prop where
  published : PublishedAs records (hist.map Prod.snd) order
  turn : InTurn order
  through : mark order = records.length
  ordered : (hist.map Prod.fst).Pairwise MessageId.before

section

variable {cat : Catalog V} {records : List ChangeRecord} {hist : List (MessageId × ChangeRecord)}
  {order played : List Nat} {i : Nat}

/-- An entry of the window for every number of the order. -/
theorem WindowOf.length_eq (h : WindowOf records hist order) : order.length = hist.length := by
  have hrecords := congrArg List.length h.published.records_eq
  rw [List.length_map, List.length_map, List.length_map] at hrecords
  rw [hrecords, length_replayed h.published.in_range]

/-- The record of an entry is that of its change, but for the commit time. -/
theorem WindowOf.record_eq (h : WindowOf records hist order) {m : MessageId} {r : ChangeRecord}
    {k : Nat} (hi : hist[i]? = some (m, r)) (hk : order[i]? = some k) :
    ∃ r', records[k]? = some r' ∧ timeless r = timeless r' := by
  have hget := congrArg (fun l : List ChangeRecord => l[i]?) h.published.records_eq
  simp only [List.getElem?_map, hi, Option.map_some, getElem?_replayed h.published.in_range, hk,
    Option.bind_some] at hget
  obtain ⟨r', hr', heq⟩ := Option.map_eq_some_iff.mp hget.symm
  exact ⟨r', hr', heq.symm⟩

/-- All places lie before the mark of the order, which gets through the history. -/
theorem WindowOf.in_range (h : WindowOf records hist order) : ∀ k ∈ order, k < mark order := by
  rw [h.through]
  exact h.published.in_range

/-- The place that is looked up for an entry, and its change. Ids are not repeated in the
window, so the look-up finds the entry's own number. -/
theorem WindowOf.place (h : WindowOf records hist order) {i : Nat} {m : MessageId}
    {r : ChangeRecord} (hi : hist[i]? = some (m, r)) :
    ∃ k, order[i]? = some k ∧ (numbered hist order).lookup m = some k ∧
      ∃ hk : k < records.length, timeless r = timeless records[k] := by
  have hlt : i < order.length := by
    rw [h.length_eq]
    exact (List.getElem?_eq_some_iff.mp hi).1
  have hk := List.getElem?_eq_getElem hlt
  have hm : (hist.map Prod.fst)[i]? = some m := by
    rw [List.getElem?_map, hi]
    rfl
  obtain ⟨r', hr', htimeless⟩ := h.record_eq hi hk
  obtain ⟨hin, rfl⟩ := List.getElem?_eq_some_iff.mp hr'
  exact ⟨_, hk, lookup_numbered h.ordered hm hk, hin, htimeless⟩

/-- No matter what was applied to the target before, its mark is not beyond the history. -/
theorem WindowOf.mark_le {t₀ db : Table σ} [∀ i, DecidableEq (V i)] (h : WindowOf records hist order)
    (hpartly : Partly cat t₀ records db played) : mark played ≤ mark order := by
  rw [h.through]
  exact foldl_advance_le hpartly.in_range (Nat.zero_le _)

end

/-- What the dedup store knows: a change of which it has a live key is behind the mark. This is
all that is needed of the store. A change that it has forgotten is applied again, which does no
harm; one that it knows is not, so it must not be one that the target still needs. -/
def Remembers (md5_16 : String → String) (records : List ChangeRecord) (store : DedupStore)
    (now : Int) (played : List Nat) : Prop :=
  ∀ k (hk : k < records.length),
    key_exists store (compute_idempotency_key md5_16 records[k]) now = true → k < mark played

/-- Under the key of a change nothing else is stored, neither another change nor an event of
another table. Then a duplicate is a duplicate of the change, and what is stored for another
table says nothing about this one. -/
structure KeysApart (md5_16 : String → String) (own : String → Bool) (records : List ChangeRecord)
    (events : List (MessageId × ChangeRecord)) : Prop where
  changes : ∀ j (hj : j < records.length) k (hk : k < records.length),
    stored_key (compute_idempotency_key md5_16 records[j])
      = some (compute_idempotency_key md5_16 records[k]) → j = k
  others : ∀ m r, (m, r) ∈ events → own r.table = false → ∀ k (hk : k < records.length),
    stored_key (compute_idempotency_key md5_16 r)
      ≠ some (compute_idempotency_key md5_16 records[k])

/-- The key does not depend on the commit time, which the parser may have taken from the clock.
So the records of one change, published at different times, have one key. -/
theorem key_of_timeless {md5_16 : String → String} {r r' : ChangeRecord}
    (h : timeless r = timeless r') :
    compute_idempotency_key md5_16 r = compute_idempotency_key md5_16 r' := by
  have htimeless : ∀ r, compute_idempotency_key md5_16 (timeless r)
      = compute_idempotency_key md5_16 r := fun _ => rfl
  rw [← htimeless, h, htimeless]

/-- A target equal to the source, to which nothing has been applied. -/
theorem Partly.initial [∀ i, DecidableEq (V i)] (cat : Catalog V) (t : Table σ) (records : List ChangeRecord) :
    Partly cat t records t [] :=
  ⟨fun _ hk => absurd hk List.not_mem_nil, rfl⟩

end WalStream.Replication
