/-
What the dedup store promises.

The check, the apply and the mark of a call are three steps, and other calls, the probe of
`Health` and the cleanup come between them. Whatever comes between, a key only gets into the
store after an apply, and nothing is written for a call that failed: `Sound`. A success is
then answered after an apply for its key, as long as the key column keeps every key as it is.

How often an event is applied is another matter. Two calls that both check before either
marks both apply. `Spaced` holds of the runs in which no call checks a key while another call
with that key has passed its check and has not marked it yet.
-/
import WalStream.Replayer.Server

set_option autoImplicit false

namespace WalStream.Replayer

open Lib

variable {md5_16 : String → String} {ttl : Int} {s t : Server} {a : Action}

/-- The times at which `apply` returned `True` for the key, newest first. -/
def applied_times (key : String) (log : List Happened) : List Int :=
  log.filterMap fun
    | .applied _ k at_ms => if k = key then some at_ms else none
    | _ => none

/-- The times are read off the log, in which each apply stands with the call it belongs to. -/
theorem mem_applied_times {key : String} {log : List Happened} {at_ms : Int} :
    at_ms ∈ applied_times key log ↔ ∃ i, .applied i key at_ms ∈ log := by
  rw [applied_times, List.mem_filterMap]
  constructor
  · rintro ⟨x, hx, hat⟩
    cases x with
    | applied i k at_ms' =>
        simp only [Option.ite_none_right_eq_some, Option.some.injEq] at hat
        obtain ⟨rfl, rfl⟩ := hat
        exact ⟨i, hx⟩
    | _ => cases hat
  · rintro ⟨i, hx⟩
    exact ⟨_, hx, by simp⟩

/-! ## No success without an apply

The store is filled by `mark_processed` alone, which comes after an `apply` of the same call. A
call that is answered as a duplicate rests on another one's mark, and so on that one's apply, if
the column has not made one key of two. -/

/-- `exists` raised in the call, or its `apply` returned `False` or raised. -/
def Failed (i : Nat) (log : List Happened) : Prop :=
  .check_raised i ∈ log ∨ .not_applied i ∈ log

/-- `apply` had returned `True` to the call that put a key into the store. -/
def StoredAfterApply : Happened → List Happened → Prop
  | .stored i stored, older =>
      ∃ key at_ms, .applied i key at_ms ∈ older ∧ stored_key key = some stored
  | _, _ => True

/-- `apply` had returned `True` for the key before a success was answered for it. -/
def AnsweredAfterApply : Happened → List Happened → Prop
  | .answered _ key response, older =>
      response.success = true → key ≠ health_check_probe → ∃ j at_ms, .applied j key at_ms ∈ older
  | _, _ => True

/-- The invariant of the store. -/
structure Sound (s : Server) : Prop where
  pending : ∀ i call, s.calls i = some call → call.phase.pending = true →
    ∃ at_ms, .applied i call.idemp_key at_ms ∈ s.log
  ended : ∀ i, (Failed i s.log ∨ ∃ stored, .stored i stored ∈ s.log) →
    s.Ended i
  failed : ∀ i stored, Failed i s.log → .stored i stored ∉ s.log
  store : ∀ key expires_at, s.store.get? key = some expires_at → key ≠ health_check_probe →
    ∃ i, .stored i key ∈ s.log
  stored : Preceded StoredAfterApply s.log

/-- In an empty store nothing has been promised yet. -/
theorem Sound.initial (clock : Int) : Sound (Server.initial Dict.empty clock) where
  pending _ _ hcall _ := by cases hcall
  ended _ h := by rcases h with (h | h) | ⟨_, h⟩ <;> cases h
  failed _ _ _ h := by cases h
  store key _ h := by rw [Server.initial, Dict.get?_empty] at h; cases h
  stored := preceded_nil _

/-- A call becomes pending by an apply that is noted in the same step. -/
theorem Sound.step_pending (h : Sound s) (hs : step md5_16 ttl s a = some t) (i : Nat)
    (call : Call) (hi : t.calls i = some call) (hp : call.phase.pending = true) :
    ∃ at_ms, .applied i call.idemp_key at_ms ∈ t.log := by
  have hold : ∀ {key : String}, (∃ at_ms, .applied i key at_ms ∈ s.log) →
      ∃ at_ms, .applied i key at_ms ∈ t.log :=
    fun ⟨at_ms, hmem⟩ => ⟨at_ms, (log_suffix hs).subset hmem⟩
  rcases call_cases hs hi with hsame | ⟨_, _, _, rfl⟩ | ⟨call₀, phase, hcall, rfl, hmoved⟩
  · exact hold (h.pending i call hsame hp)
  · cases hp
  · cases hmoved with
    | ended _ hended => cases phase <;> cases hended <;> cases hp
    | passed => cases hp
    | applied _ _ hlog => exact ⟨s.clock, hlog ▸ List.mem_cons_self ..⟩
    | stamped hph => exact hold (h.pending i call₀ hcall (by rw [hph]; rfl))

/-- A call that failed or stored its key makes no further step: its phase has no way on. This is
why it can do only one of the two. -/
theorem Sound.step_ended (h : Sound s) (hs : step md5_16 ttl s a = some t) (i : Nat)
    (hi : Failed i t.log ∨ ∃ stored, .stored i stored ∈ t.log) : t.Ended i := by
  have hold : (Failed i s.log ∨ ∃ stored, .stored i stored ∈ s.log) → t.Ended i := by
    intro hbefore
    obtain ⟨call, hcall, hended⟩ := h.ended i hbefore
    exact ⟨call, ended_stays hs hcall hended, hended⟩
  rcases hi with (hmem | hmem) | ⟨stored, hmem⟩
  · rcases log_cases hs hmem with hmem | hnoted
    · exact hold (Or.inl (Or.inl hmem))
    · cases hnoted with
      | check_raised _ _ _ _ hended => exact hended
  · rcases log_cases hs hmem with hmem | hnoted
    · exact hold (Or.inl (Or.inr hmem))
    · cases hnoted with
      | not_applied _ _ _ _ hended => exact hended
  · rcases log_cases hs hmem with hmem | hnoted
    · exact hold (Or.inr ⟨stored, hmem⟩)
    · cases hnoted with
      | stored _ _ _ _ _ _ hended => exact hended

/-- A call that moves has not ended, so it has neither failed nor stored its key before. -/
theorem Sound.not_before (h : Sound s) {i : Nat} {call : Call} (hcall : s.calls i = some call)
    (hph : call.phase.ended = false) :
    ¬ Failed i s.log ∧ ∀ stored, .stored i stored ∉ s.log := by
  have hnot : ¬ s.Ended i := by
    rintro ⟨call', hcall', hended⟩
    rw [hcall, Option.some.injEq] at hcall'
    rw [hcall', hended] at hph
    cases hph
  exact ⟨fun hfailed => hnot (h.ended i (Or.inl hfailed)),
    fun stored hmem => hnot (h.ended i (Or.inr ⟨stored, hmem⟩))⟩

/-- So nothing is ever stored for a call that failed, before it or after it. -/
theorem Sound.step_failed (h : Sound s) (hs : step md5_16 ttl s a = some t) (i : Nat)
    (stored : String) (hfailed : Failed i t.log) : .stored i stored ∉ t.log := by
  intro hmem
  rcases log_cases hs hmem with hmem | hnoted
  · -- the key was stored before, so the call had ended and cannot fail now
    rcases hfailed with hfailed | hfailed
    · rcases log_cases hs hfailed with hfailed | hnoted
      · exact h.failed i stored (Or.inl hfailed) hmem
      · cases hnoted with
        | check_raised _ call hcall hph =>
            exact (h.not_before hcall (by rw [hph]; rfl)).2 stored hmem
    · rcases log_cases hs hfailed with hfailed | hnoted
      · exact h.failed i stored (Or.inr hfailed) hmem
      · cases hnoted with
        | not_applied _ call hcall hph =>
            exact (h.not_before hcall (by rw [hph]; rfl)).2 stored hmem
  · cases hnoted with
    | stored _ call _ expires_at hstores =>
        have hph := hstores.marking
        -- the call stores its key now, so it cannot have failed before, nor fail now
        have hbefore := (h.not_before hstores.found (by rw [hph]; rfl)).1
        have hother : ∀ {call' : Call}, s.calls i = some call' → call'.phase = .marking expires_at := by
          intro call' hcall'
          rw [hstores.found, Option.some.injEq] at hcall'
          rw [← hcall', hph]
        rcases hfailed with hfailed | hfailed
        · rcases log_cases hs hfailed with hfailed | hnoted
          · exact hbefore (Or.inl hfailed)
          · cases hnoted with
            | check_raised _ call' hcall' hph' =>
                rw [hother hcall'] at hph'
                cases hph'
        · rcases log_cases hs hfailed with hfailed | hnoted
          · exact hbefore (Or.inr hfailed)
          · cases hnoted with
            | not_applied _ call' hcall' hph' =>
                rw [hother hcall'] at hph'
                cases hph'

/-- Whatever row of the store is asked about, some call put it there, or it is the probe's. The
cleanup only takes rows away. -/
theorem Sound.step_store (h : Sound s) (hs : step md5_16 ttl s a = some t) (key : String)
    (expires_at : Int) (hget : t.store.get? key = some expires_at)
    (hprobe : key ≠ health_check_probe) : ∃ i, .stored i key ∈ t.log := by
  have hold : s.store.get? key = some expires_at → ∃ i, .stored i key ∈ t.log := by
    intro hbefore
    obtain ⟨i, hmem⟩ := h.store key expires_at hbefore hprobe
    exact ⟨i, (log_suffix hs).subset hmem⟩
  rcases store_cases hs with hstore | ⟨i, call, stored, e, _, _, hstore, hmem⟩ |
    ⟨e, _, hstore⟩ | hstore
  · exact hold (hstore ▸ hget)
  · rw [hstore, Dict.get?_set] at hget
    split at hget
    · rename_i hkey
      exact ⟨i, hkey ▸ hmem⟩
    · exact hold hget
  · rw [hstore, Dict.get?_set_of_ne _ _ hprobe] at hget
    exact hold hget
  · rw [hstore, Dict.get?_filter_eq_some_iff] at hget
    exact hold hget.1

/-- A key is put into the store by a call whose apply is on record, under the form in which the
key column keeps it. -/
theorem Sound.step_stored (h : Sound s) (hs : step md5_16 ttl s a = some t) :
    Preceded StoredAfterApply t.log := by
  -- the one entry with something to show is the stored key of a call that has applied
  have hstored : ∀ {i : Nat} {call : Call} {expires_at : Int} {stored : String},
      s.calls i = some call → call.phase = .marking expires_at →
      stored_key call.idemp_key = some stored → StoredAfterApply (.stored i stored) s.log := by
    intro i call expires_at stored hcall hph hkey
    obtain ⟨at_ms, hmem⟩ := h.pending i call hcall (by rw [hph]; rfl)
    exact ⟨call.idemp_key, at_ms, hmem, hkey⟩
  cases step_took hs with
  | check_raised | not_applied =>
      exact preceded_cons.mpr ⟨trivial, preceded_cons.mpr ⟨trivial, h.stored⟩⟩
  | duplicate | applied | mark_raised => exact preceded_cons.mpr ⟨trivial, h.stored⟩
  | marked i call expires_at stored hcall hph hkey =>
      exact preceded_cons.mpr ⟨trivial, preceded_cons.mpr ⟨hstored hcall hph hkey, h.stored⟩⟩
  | marked_raised i text call expires_at stored hcall hph hkey =>
      exact preceded_cons.mpr ⟨trivial, preceded_cons.mpr ⟨hstored hcall hph hkey, h.stored⟩⟩
  | marked_lost i call expires_at stored hcall hph hkey =>
      exact preceded_cons.mpr ⟨hstored hcall hph hkey, h.stored⟩
  | _ => exact h.stored

/-- **One step**, put together from its parts. -/
theorem Sound.step (h : Sound s) (hs : step md5_16 ttl s a = some t) : Sound t where
  pending := h.step_pending hs
  ended := h.step_ended hs
  failed := h.step_failed hs
  store := h.step_store hs
  stored := h.step_stored hs

/-! ## Keys the column keeps -/

/-- The key column takes the key as it is, or not at all. -/
def KeyKept (key : String) : Prop := ∀ stored ∈ stored_key key, stored = key

instance (key : String) : Decidable (KeyKept key) :=
  inferInstanceAs (Decidable (∀ stored ∈ stored_key key, stored = key))

/-- The step stores no key in a shortened form. -/
def KeysKept (s : Server) : Action → Prop
  | .mark i _ => ∀ call ∈ s.calls i, KeyKept call.idemp_key
  | .lose i true => ∀ call ∈ s.calls i, KeyKept call.idemp_key
  | _ => True

instance (s : Server) : DecidablePred (KeysKept s)
  | .mark i _ => inferInstanceAs (Decidable (∀ call ∈ s.calls i, KeyKept call.idemp_key))
  | .lose i true => inferInstanceAs (Decidable (∀ call ∈ s.calls i, KeyKept call.idemp_key))
  | .lose _ false => isTrue trivial
  | .tick _ | .receive .. | .check .. | .apply .. | .stamp _ | .probe _ | .probe_insert _
  | .probe_fail _ | .cleanup => isTrue trivial

/-- The two steps that may store a key: a mark, and the end of a call that was cancelled in the
middle of one. -/
theorem KeysKept.kept (h : KeysKept s a) {i : Nat} {call : Call}
    (ha : a = .lose i true ∨ ∃ failure, a = .mark i failure) (hcall : s.calls i = some call) :
    KeyKept call.idemp_key := by
  rcases ha with rfl | ⟨failure, rfl⟩
  · exact h call hcall
  · exact h call hcall

/-- The invariant of the answers, along a run that stores no key in a shortened form. -/
structure Answers (s : Server) : Prop where
  kept : ∀ i stored, .stored i stored ∈ s.log → ∃ at_ms, .applied i stored at_ms ∈ s.log
  answered : Preceded AnsweredAfterApply s.log

/-- A success is answered for an apply of this call, or because the key was found in the store,
and then for an apply that stored it. The second is where a shortened key would break in: it
would be found under another one's name. -/
theorem Answers.step (h : Answers s) (hsound : Sound s) (hkept : KeysKept s a)
    (hs : step md5_16 ttl s a = some t) : Answers t := by
  have hsub := (log_suffix hs).subset
  have happlied : ∀ {i : Nat} {call : Call} {expires_at : Int}, s.calls i = some call →
      call.phase = .marking expires_at → ∃ at_ms, .applied i call.idemp_key at_ms ∈ s.log :=
    fun hcall hph => hsound.pending _ _ hcall (by rw [hph]; rfl)
  refine ⟨fun i stored hmem => ?_, ?_⟩
  · rcases log_cases hs hmem with hmem | hnoted
    · obtain ⟨at_ms, happ⟩ := h.kept i stored hmem
      exact ⟨at_ms, hsub happ⟩
    · cases hnoted with
      | stored _ call _ expires_at hstores ha =>
          obtain ⟨at_ms, happ⟩ := happlied hstores.found hstores.marking
          rw [hkept.kept ha hstores.found stored hstores.key]
          exact ⟨at_ms, hsub happ⟩
  · cases step_took hs with
    | check_raised =>
        exact preceded_cons.mpr ⟨fun hok => (by cases hok), preceded_cons.mpr ⟨trivial, h.answered⟩⟩
    | duplicate i call hcall hph hlive =>
        refine preceded_cons.mpr ⟨fun _ hprobe => ?_, h.answered⟩
        -- the key was live, so some call had stored it, after its apply
        unfold key_exists at hlive
        split at hlive
        · rename_i expires_at hget
          obtain ⟨j, hmem⟩ := hsound.store _ expires_at hget hprobe
          exact ⟨j, h.kept j _ hmem⟩
        · cases hlive
    | applied => exact preceded_cons.mpr ⟨trivial, h.answered⟩
    | not_applied i outcome response call hcall hph houtcome hfail =>
        refine preceded_cons.mpr ⟨fun hok => ?_, preceded_cons.mpr ⟨trivial, h.answered⟩⟩
        rw [hfail] at hok
        cases hok
    | marked i call expires_at stored hcall hph =>
        obtain ⟨at_ms, happ⟩ := happlied hcall hph
        exact preceded_cons.mpr ⟨fun _ _ => ⟨i, at_ms, List.mem_cons_of_mem _ happ⟩,
          preceded_cons.mpr ⟨trivial, h.answered⟩⟩
    | mark_raised => exact preceded_cons.mpr ⟨fun hok => (by cases hok), h.answered⟩
    | marked_raised =>
        exact preceded_cons.mpr ⟨fun hok => (by cases hok), preceded_cons.mpr ⟨trivial, h.answered⟩⟩
    | marked_lost => exact preceded_cons.mpr ⟨trivial, h.answered⟩
    | _ => exact h.answered

/-- **No success without an apply.** In every run from an empty store: every key of the store
but that of the probe was put there by a call to which `apply` had returned `True`; a call
whose check raised or whose apply failed stores nothing; and, if no key is stored in a
shortened form, every success is answered after an apply for its key. -/
theorem no_success_without_apply {clock : Int} {tr : List (Server × Action)}
    (hrun : Run (step md5_16 ttl) (Server.initial Dict.empty clock) tr s) :
    (∀ key expires_at, s.store.get? key = some expires_at → key ≠ health_check_probe →
      ∃ i older, (.stored i key :: older) <:+ s.log ∧ ∃ k at_ms, .applied i k at_ms ∈ older) ∧
    (StepsMeet KeysKept tr →
      ∀ i key response older, (.answered i key response :: older) <:+ s.log →
        response.success = true → key ≠ health_check_probe →
          ∃ j at_ms, .applied j key at_ms ∈ older) ∧
    ∀ i, (.check_raised i ∈ s.log ∨ .not_applied i ∈ s.log) → ∀ key, .stored i key ∉ s.log := by
  have hsound : Sound s := hrun.invariant (C := fun _ _ => True) (I := Sound)
    (fun s a t hI _ hs => hI.step hs) (Sound.initial clock) (fun _ _ => trivial)
  refine ⟨fun key expires_at hget hprobe => ?_, fun hkept i key response older hmem => ?_,
    fun i hfailed key => hsound.failed i key hfailed⟩
  · obtain ⟨i, hmem⟩ := hsound.store key expires_at hget hprobe
    obtain ⟨older, hsuffix, k, at_ms, happ, _⟩ := hsound.stored.of_mem hmem
    exact ⟨i, older, hsuffix, k, at_ms, happ⟩
  · have hanswers : Sound s ∧ Answers s := hrun.invariant (I := fun s => Sound s ∧ Answers s)
      (fun s a t hI hC hs => ⟨hI.1.step hs, hI.2.step hI.1 hC hs⟩)
      ⟨Sound.initial clock, fun _ _ h => (by cases h), preceded_nil _⟩ hkept
    exact hanswers.2.answered _ older hmem

/-! ### A key that is cut off -/

/-- A call with the key `key` is applied and its key stored; another one comes, with the key
`key'`. -/
def appliedThenSent (key key' : String) : List Action :=
  [.receive 0 ⟨sampleRecord "1", key⟩, .check 0 false, .apply 0 (.ok true), .stamp 0, .mark 0 none,
    .receive 1 ⟨sampleRecord "2", key'⟩, .check 1 false]

/-- The second call with a key is answered as a duplicate, after an apply for the key. -/
theorem no_success_without_apply_twice :
    ∃ s : Server, .answered 1 "k" duplicate_skipped ∈ s.log ∧
      ∃ older, (.answered 1 "k" duplicate_skipped :: older) <:+ s.log ∧
        ∃ j at_ms, .applied j "k" at_ms ∈ older := by
  have hrun : ∃ tr s, Run (step md5Prefix 604800) (Server.initial Dict.empty 0) tr s ∧
      StepsMeet KeysKept tr ∧ .answered 1 "k" duplicate_skipped ∈ s.log :=
    exists_run_meeting_of_exec (appliedThenSent "k" "k") (by decide) (by decide)
  obtain ⟨tr, s, hrun, hkept, hmem⟩ := hrun
  obtain ⟨newer, older, hlog⟩ := List.append_of_mem hmem
  have hsuffix : (.answered 1 "k" duplicate_skipped :: older) <:+ s.log := ⟨newer, hlog.symm⟩
  exact ⟨s, hmem, older, hsuffix, (no_success_without_apply hrun).2.1 hkept 1 "k" duplicate_skipped
    older hsuffix rfl (by decide)⟩

section

attribute [local simp] exec step Server.answer Server.note Server.set_phase Server.insert
  ReplayRequest.key

/-- An event whose key another one was shortened to is answered as a duplicate. -/
theorem shortened_key_taken {key stored : String} (hkey : stored_key key = some stored)
    (hne : key ≠ stored) (hnonempty : key ≠ "") (hstored : stored ≠ "") :
    ∃ tr s, Run (step md5Prefix 604800) (Server.initial Dict.empty 0) tr s ∧
      .answered 1 stored duplicate_skipped ∈ s.log ∧ applied_times stored s.log = [] := by
  refine exists_run_of_exec (appliedThenSent key stored) ?_
  simp [appliedThenSent, Server.initial, key_exists, hkey, hne, hnonempty, hstored, applied_times,
    Function.update_of_ne]

end

/-- A key that is over the length by one blank is stored without it. -/
theorem stored_key_padded {as : List Char} (hlen : as.length = 255) :
    stored_key (String.ofList (as ++ [' '])) = some (String.ofList as) := by
  have hlong : ¬ (String.ofList (as ++ [' '])).length ≤ 255 := by
    rw [String.length_ofList, List.length_append, hlen]
    decide
  rw [stored_key, if_neg hlong]
  simp [hlen]

/-- A key of 255 letters and a blank is stored without the blank, so an event with the key of
255 letters is answered as a duplicate, and nothing was ever applied under that key. -/
theorem duplicate_of_padded_key :
    ∃ tr s, Run (step md5Prefix 604800) (Server.initial Dict.empty 0) tr s ∧
      .answered 1 (String.ofList (List.replicate 255 'a')) duplicate_skipped ∈ s.log ∧
      ∀ j at_ms, .applied j (String.ofList (List.replicate 255 'a')) at_ms ∉ s.log := by
  have hlen : (List.replicate 255 'a').length = 255 := List.length_replicate
  generalize List.replicate 255 'a' = as at hlen ⊢
  have hlength : ∀ {bs : List Char}, (String.ofList bs).length = bs.length :=
    String.length_ofList
  have hne : String.ofList (as ++ [' ']) ≠ String.ofList as := by
    intro heq
    have hlengths := congrArg String.length heq
    rw [hlength, hlength, List.length_append, List.length_singleton] at hlengths
    omega
  have hnonempty : ∀ {bs : List Char}, 255 ≤ bs.length → String.ofList bs ≠ "" := by
    intro bs hbs heq
    have hzero := congrArg String.length heq
    rw [hlength, String.length_empty] at hzero
    omega
  obtain ⟨tr, s, hrun, hmem, hnone⟩ := shortened_key_taken (stored_key_padded hlen) hne
    (hnonempty (by rw [List.length_append]; omega)) (hnonempty (Nat.le_of_eq hlen.symm))
  refine ⟨tr, s, hrun, hmem, fun j at_ms happlied => ?_⟩
  have htimes := mem_applied_times.mpr ⟨j, happlied⟩
  rw [hnone] at htimes
  cases htimes

/-! ## How often an event is applied

Between the check of a call and its mark the store says nothing of it. The spacing holds if no
other call with the key checks in that time and the mark is carried out: then every apply is
covered, by its age, by a call on its way to the mark, or by a row of the store. -/

/-- The applies of a key are a TTL apart. -/
def Spaced (ttl : Int) (log : List Happened) : Prop :=
  ∀ key, (applied_times key log).Pairwise fun later earlier => earlier + ttl ≤ later

/-- The call has passed its check, and its key is not stored yet. -/
def CallPhase.between : CallPhase → Bool
  | .applying => true
  | .applied => true
  | .marking _ => true
  | _ => false

/-- A call to which `apply` has returned `True` stores its key: its `mark_processed` is
carried out. -/
def MarksSucceed (s : Server) : Action → Prop
  | .mark i failure => ∀ call ∈ s.calls i,
      stored_key call.idemp_key ≠ none ∧ ∀ f ∈ failure, f.2 = true
  | .lose i carried_out => ∀ call ∈ s.calls i, call.phase.pending = true →
      call.phase ≠ .applied ∧ stored_key call.idemp_key ≠ none ∧ carried_out = true
  | _ => True

instance (s : Server) : DecidablePred (MarksSucceed s)
  | .mark i failure => inferInstanceAs (Decidable (∀ call ∈ s.calls i,
      stored_key call.idemp_key ≠ none ∧ ∀ f ∈ failure, f.2 = true))
  | .lose i carried_out => inferInstanceAs (Decidable (∀ call ∈ s.calls i,
      call.phase.pending = true →
        call.phase ≠ .applied ∧ stored_key call.idemp_key ≠ none ∧ carried_out = true))
  | .tick _ | .receive .. | .check .. | .apply .. | .stamp _ | .probe _ | .probe_insert _
  | .probe_fail _ | .cleanup => isTrue trivial

/-- No call checks a key while another one with that key has passed its check and has not
stored it yet. -/
def CheckedAlone (s : Server) : Action → Prop
  | .check i _ => ∀ call ∈ s.calls i, ∀ j, j ≠ i → ∀ call' ∈ s.calls j,
      call'.phase.between = true → call'.idemp_key ≠ call.idemp_key
  | _ => True

/-- The condition for the spacing. -/
def Exclusive (s : Server) (a : Action) : Prop :=
  MarksSucceed s a ∧ KeysKept s a ∧ CheckedAlone s a

/-- The invariant of the spacing. -/
structure Guarded (ttl : Int) (s : Server) : Prop where
  past : ∀ key, ∀ at_ms ∈ applied_times key s.log, at_ms ≤ s.clock
  /-- Every apply is covered: it is a TTL ago, or its key is about to be stored, or stored. -/
  covered : ∀ key, ∀ at_ms ∈ applied_times key s.log, at_ms + ttl ≤ s.clock ∨
    (∃ i call, s.calls i = some call ∧ call.phase.pending = true ∧ call.idemp_key = key) ∨
    ∃ expires_at, s.store.get? key = some expires_at ∧ at_ms + ttl ≤ expires_at
  alone : ∀ i call j call', s.calls i = some call → s.calls j = some call' →
    call.phase.between = true → call'.phase.between = true →
    call.idemp_key = call'.idemp_key → i = j
  clear : ∀ i call, s.calls i = some call → call.phase = .applying →
    ∀ at_ms ∈ applied_times call.idemp_key s.log, at_ms + ttl ≤ s.clock
  stamped : ∀ i call expires_at, s.calls i = some call → call.phase = .marking expires_at →
    ∀ at_ms ∈ applied_times call.idemp_key s.log, at_ms + ttl ≤ expires_at
  spaced : Spaced ttl s.log

/-- Before the first call nothing has been applied, whatever is in the store. -/
theorem Guarded.initial (store : DedupStore) (clock : Int) :
    Guarded ttl (Server.initial store clock) where
  past _ _ h := by cases h
  covered _ _ h := by cases h
  alone _ _ _ _ h := by cases h
  clear _ _ h := by cases h
  stamped _ _ _ h := by cases h
  spaced _ := List.Pairwise.nil

/-- A call whose key is to be stored has passed its check. -/
theorem pending_between {phase : CallPhase} (h : phase.pending = true) :
    phase.between = true := by
  cases phase <;> first | rfl | cases h

/-- An apply on record is an old one, or the one of this step. -/
theorem applied_times_cases (hs : step md5_16 ttl s a = some t) {key : String} {at_ms : Int}
    (h : at_ms ∈ applied_times key t.log) :
    at_ms ∈ applied_times key s.log ∨
    at_ms = s.clock ∧ ∃ i call, s.calls i = some call ∧ call.phase = .applying ∧
      call.idemp_key = key ∧ a = .apply i (.ok true) ∧
      t.calls i = some { call with phase := .applied } := by
  obtain ⟨i, hmem⟩ := mem_applied_times.mp h
  rcases log_cases hs hmem with hmem | hnoted
  · exact Or.inl (mem_applied_times.mpr ⟨i, hmem⟩)
  · cases hnoted with
    | applied _ call hcall hph ha happlied =>
        exact Or.inr ⟨rfl, i, call, hcall, hph, rfl, ha, happlied⟩

/-- A call between check and mark was there before, or passes its check now. -/
theorem between_cases (hs : step md5_16 ttl s a = some t) {i : Nat} {call : Call}
    (hi : t.calls i = some call) (hb : call.phase.between = true) :
    ∃ call₀, s.calls i = some call₀ ∧ call₀.idemp_key = call.idemp_key ∧
      (call₀.phase.between = true ∨ a = .check i false ∧ call₀.phase = .checking) := by
  rcases call_cases hs hi with hsame | ⟨_, _, _, rfl⟩ | ⟨call₀, phase, hcall, rfl, hmoved⟩
  · exact ⟨call, hsame, rfl, Or.inl hb⟩
  · cases hb
  · refine ⟨call₀, hcall, rfl, ?_⟩
    cases hmoved with
    | ended _ hended => cases phase <;> cases hended <;> cases hb
    | passed hph ha => exact Or.inr ⟨ha, hph⟩
    | applied hph => exact Or.inl (by rw [hph]; rfl)
    | stamped hph => exact Or.inl (by rw [hph]; rfl)

/-- A call whose key is to be stored still is, or its key is stored now. -/
theorem pending_cases (hs : step md5_16 ttl s a = some t) (hmarks : MarksSucceed s a)
    (hkept : KeysKept s a) {i : Nat} {call : Call} (hi : s.calls i = some call)
    (hp : call.phase.pending = true) :
    (∃ call', t.calls i = some call' ∧ call'.phase.pending = true ∧
      call'.idemp_key = call.idemp_key) ∨
    ∃ expires_at, call.phase = .marking expires_at ∧
      t.store.get? call.idemp_key = some expires_at := by
  -- a step of another call, or of none, leaves this one as it is
  have hother : ∀ {j : Nat} {o : Option Call}, i ≠ j → (∃ call',
      Function.update s.calls j o i = some call' ∧ call'.phase.pending = true ∧
        call'.idemp_key = call.idemp_key) :=
    fun hij => ⟨call, by rw [Function.update_of_ne hij, hi], hp, rfl⟩
  have hne : ∀ {j : Nat} {c : Call}, s.calls j = some c → c.phase.pending = false → i ≠ j := by
    rintro j c hc hphase rfl
    rw [hi, Option.some.injEq] at hc
    rw [← hc, hp] at hphase
    cases hphase
  -- the `INSERT` of a mark: that of another call, or the one that stores the key
  have hstores : ∀ {j : Nat} {c : Call} {expires_at : Int} {stored : String} {o : Option Call},
      s.calls j = some c → c.phase = .marking expires_at → stored_key c.idemp_key = some stored →
      (i = j → KeyKept call.idemp_key) →
      (∃ call', Function.update s.calls j o i = some call' ∧ call'.phase.pending = true ∧
        call'.idemp_key = call.idemp_key) ∨
      ∃ expires_at', call.phase = .marking expires_at' ∧
        (s.store.set stored expires_at).get? call.idemp_key = some expires_at' := by
    intro j c expires_at stored o hcall hph hkey hkept
    by_cases hij : i = j
    · subst hij
      obtain rfl : call = c := Option.some.inj (hi.symm.trans hcall)
      rw [hkept rfl stored hkey]
      exact Or.inr ⟨expires_at, hph, Dict.get?_set_self ..⟩
    · exact Or.inl (hother hij)
  cases step_took hs with
  | receive j request hfree =>
      refine Or.inl (hother ?_)
      rintro rfl
      rw [hi] at hfree
      cases hfree
  | check_raised j c hcall hph => exact Or.inl (hother (hne hcall (by rw [hph]; rfl)))
  | duplicate j c hcall hph => exact Or.inl (hother (hne hcall (by rw [hph]; rfl)))
  | passed j c hcall hph => exact Or.inl (hother (hne hcall (by rw [hph]; rfl)))
  | applied j c hcall hph => exact Or.inl (hother (hne hcall (by rw [hph]; rfl)))
  | not_applied j outcome response c hcall hph =>
      exact Or.inl (hother (hne hcall (by rw [hph]; rfl)))
  | stamp j c hcall hph =>
      by_cases hij : i = j
      · subst hij
        rw [hi, Option.some.injEq] at hcall
        subst hcall
        exact Or.inl ⟨_, Function.update_self .., rfl, rfl⟩
      · exact Or.inl (hother hij)
  | marked j c expires_at stored hcall hph hkey =>
      exact hstores hcall hph hkey (fun hij => by subst hij; exact hkept call hi)
  | mark_raised j failure text c expires_at hcall hph hfailure =>
      by_cases hij : i = j
      · subst hij
        obtain ⟨hstorable, hdone⟩ := hmarks c hcall
        exact absurd (hfailure hdone) hstorable
      · exact Or.inl (hother hij)
  | marked_raised j text c expires_at stored hcall hph hkey =>
      exact hstores hcall hph hkey (fun hij => by subst hij; exact hkept call hi)
  | lost j carried_out c hcall hph hnot =>
      by_cases hij : i = j
      · subst hij
        rw [hi, Option.some.injEq] at hcall
        subst hcall
        obtain ⟨hnotyet, hstorable, hout⟩ := hmarks call hi hp
        cases hmarking : call.phase with
        | marking expires_at => exact absurd (hnot hout expires_at hmarking) hstorable
        | applied => exact absurd hmarking hnotyet
        | _ => rw [hmarking] at hp; cases hp
      · exact Or.inl (hother hij)
  | marked_lost j c expires_at stored hcall hph hkey =>
      exact hstores hcall hph hkey (fun hij => by subst hij; exact hkept call hi)
  | _ => exact Or.inl ⟨call, hi, hp, rfl⟩

section

variable (h : Guarded ttl s) (hs : step md5_16 ttl s a = some t)
include h hs

/-- Applies are noted with the time of the clock, which does not go back. -/
theorem Guarded.step_past (key : String) (at_ms : Int) (hmem : at_ms ∈ applied_times key t.log) :
    at_ms ≤ t.clock := by
  have hclock := clock_le hs
  rcases applied_times_cases hs hmem with hmem | ⟨rfl, _⟩
  · exact (h.past key at_ms hmem).trans hclock
  · exact hclock

/-- Two calls with one key are never both past their checks: the one that checks later finds the
other there, and the condition is that it does not. -/
theorem Guarded.step_alone (halone : CheckedAlone s a) (i : Nat) (call : Call) (j : Nat)
    (call' : Call) (hi : t.calls i = some call) (hj : t.calls j = some call')
    (hbi : call.phase.between = true) (hbj : call'.phase.between = true)
    (hkey : call.idemp_key = call'.idemp_key) : i = j := by
  obtain ⟨c, hc, hck, hci⟩ := between_cases hs hi hbi
  obtain ⟨c', hc', hck', hcj⟩ := between_cases hs hj hbj
  by_contra hij
  rcases hci with hci | ⟨rfl, _⟩
  · rcases hcj with hcj | ⟨rfl, _⟩
    · exact hij (h.alone i c j c' hc hc' hci hcj (by rw [hck, hck', hkey]))
    · exact halone c' hc' i hij c hc hci (by rw [hck, hck', hkey])
  · rcases hcj with hcj | ⟨hcheck, _⟩
    · exact halone c hc j (Ne.symm hij) c' hc' hcj (by rw [hck, hck', hkey])
    · cases hcheck
      exact hij rfl

/-- The apply of this step is not that of another call between its check and its mark. -/
theorem Guarded.applied_before {i : Nat} {call : Call} (hi : t.calls i = some call)
    (hcall : ∃ call₀, s.calls i = some call₀ ∧ call₀.idemp_key = call.idemp_key ∧
      call₀.phase.between = true)
    (hph : call.phase ≠ .applied) {at_ms : Int}
    (hmem : at_ms ∈ applied_times call.idemp_key t.log) :
    at_ms ∈ applied_times call.idemp_key s.log := by
  rcases applied_times_cases hs hmem with hmem | ⟨_, j, c, hc, hcph, hck, _, happlied⟩
  · exact hmem
  · obtain ⟨call₀, hcall₀, hkey₀, hb⟩ := hcall
    obtain rfl : j = i := h.alone j c i call₀ hc hcall₀ (by rw [hcph]; rfl) hb
      (by rw [hck, hkey₀])
    rw [hi, Option.some.injEq] at happlied
    rw [happlied] at hph
    exact absurd rfl hph

/-- A call that has just passed its check found no row of its key, and no other call is about to
store it. So every earlier apply of the key is a TTL ago, and stays so. -/
theorem Guarded.step_clear (halone : CheckedAlone s a) (i : Nat) (call : Call)
    (hi : t.calls i = some call) (hph : call.phase = .applying) (at_ms : Int)
    (hmem : at_ms ∈ applied_times call.idemp_key t.log) : at_ms + ttl ≤ t.clock := by
  have hclock := clock_le hs
  rcases call_cases hs hi with hsame | ⟨_, _, _, rfl⟩ | ⟨call₀, phase, hcall, rfl, hmoved⟩
  · have hold := h.applied_before hs hi ⟨call, hsame, rfl, by rw [hph]; rfl⟩ (by rw [hph]; simp) hmem
    exact (h.clear i call hsame hph at_ms hold).trans hclock
  · cases hph
  · cases hmoved with
    | ended _ hended => cases hph; cases hended
    | applied => cases hph
    | stamped => cases hph
    | passed hchecking ha hdead =>
        -- the check has passed: nothing of this key is live, or about to be stored
        rcases applied_times_cases hs hmem with hold | ⟨_, j, c, _, _, _, happly, _⟩
        · rcases h.covered _ at_ms hold with hexp | ⟨j, c, hc, hcp, hck⟩ | ⟨e, hget, he⟩
          · exact hexp.trans hclock
          · subst ha
            refine absurd hck (halone call₀ hcall j ?_ c hc (pending_between hcp))
            rintro rfl
            rw [hcall, Option.some.injEq] at hc
            rw [← hc, hchecking] at hcp
            cases hcp
          · rw [key_exists, hget] at hdead
            simp only [decide_eq_false_iff_not, Int.not_lt] at hdead
            omega
        · rw [ha] at happly
          cases happly

/-- The expiry is computed from the time of the stamp, which is not before that of the apply. A
row that is stored from it covers the apply. -/
theorem Guarded.step_stamped (i : Nat) (call : Call) (expires_at : Int)
    (hi : t.calls i = some call) (hph : call.phase = .marking expires_at) (at_ms : Int)
    (hmem : at_ms ∈ applied_times call.idemp_key t.log) : at_ms + ttl ≤ expires_at := by
  have hnot : call.phase ≠ .applied := by rw [hph]; simp
  rcases call_cases hs hi with hsame | ⟨_, _, _, rfl⟩ | ⟨call₀, phase, hcall, rfl, hmoved⟩
  · have hold := h.applied_before hs hi ⟨call, hsame, rfl, by rw [hph]; rfl⟩ hnot hmem
    exact h.stamped i call expires_at hsame hph at_ms hold
  · cases hph
  · cases hmoved with
    | ended _ hended => cases hph; cases hended
    | passed => cases hph
    | applied => cases hph
    | stamped happlied =>
        cases hph
        have hold := h.applied_before hs hi ⟨call₀, hcall, rfl, by rw [happlied]; rfl⟩ hnot hmem
        exact Int.add_le_add_right (h.past _ at_ms hold) ttl

/-- An apply stays covered: it is a TTL ago, its key is on the way into the store, or it is
there with an expiry that is late enough. The cleanup takes a row only when its expiry has
passed, and then the apply is a TTL ago. -/
theorem Guarded.step_covered (hmarks : MarksSucceed s a) (hkept : KeysKept s a) (key : String)
    (at_ms : Int) (hmem : at_ms ∈ applied_times key t.log) :
    at_ms + ttl ≤ t.clock ∨
    (∃ i call, t.calls i = some call ∧ call.phase.pending = true ∧ call.idemp_key = key) ∨
    ∃ expires_at, t.store.get? key = some expires_at ∧ at_ms + ttl ≤ expires_at := by
  have hclock := clock_le hs
  rcases applied_times_cases hs hmem with hold | ⟨_, i, call, _, _, hkey, _, happlied⟩
  · rcases h.covered key at_ms hold with hexp | ⟨i, call, hcall, hp, rfl⟩ | ⟨e, hget, he⟩
    · exact Or.inl (hexp.trans hclock)
    · rcases pending_cases hs hmarks hkept hcall hp with ⟨call', hcall', hp', hkey⟩ | ⟨e, hph, hget⟩
      · exact Or.inr (Or.inl ⟨i, call', hcall', hp', hkey⟩)
      · exact Or.inr (Or.inr ⟨e, hget, h.stamped i call e hcall hph at_ms hold⟩)
    · -- the row stays, is written anew with a later expiry, or is removed once it has expired
      rcases store_cases hs with hstore | ⟨i, call, stored, e', hstores, ha, hstore, _⟩ |
        ⟨e', hnew, hstore⟩ | hstore
      · exact Or.inr (Or.inr ⟨e, hstore ▸ hget, he⟩)
      · by_cases hkey : key = stored
        · subst hkey
          have hown := hkept.kept ha hstores.found key hstores.key
          refine Or.inr (Or.inr ⟨e', hstore ▸ Dict.get?_set_self .., ?_⟩)
          exact h.stamped i call e' hstores.found hstores.marking at_ms (hown ▸ hold)
        · exact Or.inr (Or.inr ⟨e, by rw [hstore, Dict.get?_set_of_ne _ _ hkey, hget], he⟩)
      · have hkey : key ≠ health_check_probe := by
          rintro rfl
          rw [hnew] at hget
          cases hget
        exact Or.inr (Or.inr ⟨e, by rw [hstore, Dict.get?_set_of_ne _ _ hkey, hget], he⟩)
      · by_cases hlive : e < s.clock
        · exact Or.inl (by omega)
        · refine Or.inr (Or.inr ⟨e, ?_, he⟩)
          rw [hstore, Dict.get?_filter_eq_some_iff]
          exact ⟨hget, by simp [hlive]⟩
  · exact Or.inr (Or.inl ⟨i, _, happlied, rfl, hkey⟩)

/-- A new apply comes a TTL after all those before it, because its call was clear. -/
theorem Guarded.step_spaced : Spaced ttl t.log := by
  intro key
  have hold := h.spaced key
  cases step_took hs with
  | applied i call hcall hph =>
      simp only [applied_times, Server.note, Server.set_phase, List.filterMap_cons]
      split
      · exact hold
      · rename_i at_ms hat
        simp only [Option.ite_none_right_eq_some, Option.some.injEq] at hat
        obtain ⟨rfl, rfl⟩ := hat
        exact List.pairwise_cons.mpr ⟨h.clear i call hcall hph, hold⟩
  | _ => exact hold

/-- **One step** of a run that meets the condition. The five parts are kept separately; each
uses what the others say of the state before. -/
theorem Guarded.step (hex : Exclusive s a) : Guarded ttl t where
  past := h.step_past hs
  covered := h.step_covered hs hex.1 hex.2.1
  alone := h.step_alone hs hex.2.2
  clear := h.step_clear hs hex.2.2
  stamped := h.step_stamped hs
  spaced := h.step_spaced hs

end

/-- **One apply within a TTL.** From any store and at any interleaving, if every call that
has been applied stores its key, the key column keeps every key as it is, and no call checks
a key while another call with that key is between its check and its mark, then the applies of
every key are a TTL apart. -/
theorem applies_spaced {store : DedupStore} {clock : Int} {tr : List (Server × Action)}
    (hrun : Run (Replayer.step md5_16 ttl) (Server.initial store clock) tr s)
    (hex : StepsMeet Exclusive tr) : Spaced ttl s.log :=
  (hrun.invariant (I := Guarded ttl) (fun _ _ _ hI hC hs => hI.step hs hC)
    (Guarded.initial store clock) hex).spaced

/-- A call is applied and its key stored; ten milliseconds later the event is sent again and
applied again. -/
def appliedTwice : List Action :=
  [.receive 0 ⟨sampleRecord "1", "k"⟩, .check 0 false, .apply 0 (.ok true), .stamp 0, .mark 0 none,
    .tick 10, .receive 1 ⟨sampleRecord "1", "k"⟩, .check 1 false, .apply 1 (.ok true)]

/-- The two calls of the sample do not overlap. -/
theorem appliedTwice_checkedAlone :
    ExecMeets (step md5Prefix 10) CheckedAlone (Server.initial Dict.empty 0) appliedTwice := by
  refine ⟨trivial, fun s hs => ⟨?_, fun s₂ hs₂ => ⟨trivial, fun s₃ hs₃ => ⟨trivial, fun s₄ hs₄ =>
    ⟨trivial, fun s₅ hs₅ => ⟨trivial, fun s₆ hs₆ => ⟨trivial, fun s₇ hs₇ => ⟨?_, fun _ _ =>
      ⟨trivial, fun _ _ => trivial⟩⟩⟩⟩⟩⟩⟩⟩⟩
  · -- the first call is the only one
    cases hs
    rintro call hcall j hj call' hcall'
    simp [Function.update_of_ne hj, Server.initial] at hcall'
  · -- the first call has been answered
    cases hs; cases hs₂; cases hs₃; cases hs₄; cases hs₅; cases hs₆; cases hs₇
    rintro call hcall j hj call' hcall' hb
    by_cases hj0 : j = 0
    · subst hj0
      cases hcall'
      cases hb
    · simp [Server.answer, Server.set_phase, Server.note, Server.insert, Server.initial,
        Function.update_of_ne hj, Function.update_of_ne hj0] at hcall'

/-- With a TTL of ten milliseconds the second apply is not too early. -/
theorem applies_spaced_twice :
    ∃ s : Server, applied_times "k" s.log = [10, 0] ∧ Spaced 10 s.log := by
  have hmarks : ExecMeets (step md5Prefix 10) MarksSucceed (Server.initial Dict.empty 0)
      appliedTwice := by decide
  have hkept : ExecMeets (step md5Prefix 10) KeysKept (Server.initial Dict.empty 0)
      appliedTwice := by decide
  obtain ⟨tr, s, hrun, hex, hs⟩ := exists_run_meeting_of_exec
    (p := fun s => applied_times "k" s.log = [10, 0]) appliedTwice
    (hmarks.and (hkept.and appliedTwice_checkedAlone)) (by decide)
  exact ⟨s, hs, applies_spaced hrun hex⟩

/-- Two calls with one key both check before either is applied: the event is applied twice at
one moment, and every mark succeeds. -/
theorem applied_twice_at_once :
    ∃ tr s, Run (step md5Prefix 604800) (Server.initial Dict.empty 0) tr s ∧
      StepsMeet MarksSucceed tr ∧ applied_times "k" s.log = [0, 0] :=
  exists_run_meeting_of_exec
    [.receive 0 ⟨sampleRecord "1", "k"⟩, .receive 1 ⟨sampleRecord "1", "k"⟩,
      .check 0 false, .check 1 false, .apply 0 (.ok true), .apply 1 (.ok true),
      .stamp 0, .mark 0 none, .stamp 1, .mark 1 none]
    (by decide) (by decide)

end WalStream.Replayer
