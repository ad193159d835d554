/-
`ReplayerService.ReplayEvent`: deduplication around the target applier.

A request is answered from the dedup store if its key is there and has not expired;
otherwise the event goes to the applier, and its key is stored when the applier succeeds.
Without a key in the request the key is `lsn:table:hash`, the hash being that of the row
data alone. All changes of one WAL message share the LSN, so two of them that touch the
same row data of a table share the key, whatever their operations are.
-/
import WalStream.Ingest.Parse
import WalStream.Lib.Log
import Mathlib.Data.List.Sort
import Mathlib.Data.List.Induction

set_option autoImplicit false

namespace WalStream.Replayer

open Lib Ingest

/-! ## The key -/

/-- `data_str`: the row data the key is made of, `new` unless it is empty, in key order. -/
def data_str (event : ChangeRecord) : String :=
  let data := if event.new.isEmpty then event.old else event.new
  ":".intercalate
    ((data.entries.insertionSort fun a b => a.1 ≤ b.1).map fun e => e.1 ++ "=" ++ e.2)

/-- `_compute_idempotency_key`; `md5_16` is `hashlib.md5(…).hexdigest()[:16]`. -/
def compute_idempotency_key (md5_16 : String → String) (event : ChangeRecord) : String :=
  event.lsn ++ ":" ++ event.table ++ ":" ++ md5_16 (data_str event)

example : data_str { sampleRecord "1" with
    new := (Dict.empty.set "name" "a").set "id" "7" } = "id=7:name=a" := by decide

/-! ## The dedup store -/

/-- `walstream_dedup.processed_events`: the expiry of every key. -/
abbrev DedupStore := Dict String Int

/-- `AsyncDedupStore.exists` at the time `now`. -/
def key_exists (store : DedupStore) (key : String) (now : Int) : Bool :=
  match store.get? key with
  | some expires_at => decide (now < expires_at)
  | none => false

theorem key_exists_eq_true_iff {store : DedupStore} {key : String} {now : Int} :
    key_exists store key now = true ↔ ∃ expires_at, store.get? key = some expires_at ∧
      now < expires_at := by
  unfold key_exists
  cases store.get? key <;> simp

/-- What `VARCHAR(255)` makes of a text. A longer text is refused, unless only blanks are
over the length: then they are cut off. -/
def stored_key (key : String) : Option String :=
  if key.length ≤ 255 then some key
  else if (key.toList.drop 255).all fun c => c == ' ' then
    some (String.ofList (key.toList.take 255))
  else none

/-- `AsyncDedupStore.mark_processed`. -/
def mark_processed (store : DedupStore) (key : String) (expires_at : Int) :
    Except String DedupStore :=
  match stored_key key with
  | some key => .ok (store.set key expires_at)
  | none => .error "value too long for type character varying(255)"

/-! ## `ReplayEvent` -/

/-- `ReplayRequest`, without the job id, which is stored and never read. -/
structure ReplayRequest where
  event : ChangeRecord
  idempotency_key : String

structure ReplayResponse where
  success : Bool
  message : String
  was_duplicate : Bool
deriving DecidableEq, Repr

/-- What the calls of one request meet: a value, or the text of the exception. -/
structure ReplayCalls where
  /-- `exists`: the database's `NOW()`. -/
  check : Except String Int
  /-- `target_applier.apply`: its answer. -/
  apply : Except String Bool
  /-- `mark_processed`: the time it adds the TTL to. -/
  mark : Except String Int

/-- What became of a request: whether the event was handed to the applier, and the
answer. -/
structure Reply where
  handed : Bool
  response : ReplayResponse
deriving DecidableEq, Repr

/-- The answer to an exception: `str(e)[:200]`. -/
def error_response (text : String) : ReplayResponse :=
  { success := false, message := String.ofList (text.toList.take 200), was_duplicate := false }

/-- `ReplayerService.ReplayEvent`. -/
def ReplayEvent (md5_16 : String → String) (ttl : Int) (store : DedupStore)
    (request : ReplayRequest) (calls : ReplayCalls) : DedupStore × Reply :=
  let idemp_key :=
    if request.idempotency_key = "" then compute_idempotency_key md5_16 request.event
    else request.idempotency_key
  -- the check comes first, and an event that cannot be checked is not applied
  match calls.check with
  | .error _ => (store, ⟨false, ⟨false, "Deduplication check failed", false⟩⟩)
  | .ok now =>
      if key_exists store idemp_key now then
        (store, ⟨false, ⟨true, "duplicate_skipped", true⟩⟩)
      else
        match calls.apply with
        | .error text => (store, ⟨true, error_response text⟩)
        | .ok false => (store, ⟨true, ⟨false, "Failed to apply event to target", false⟩⟩)
        | .ok true =>
            -- the key is stored after the apply, not with it
            match calls.mark with
            | .error text => (store, ⟨true, error_response text⟩)
            | .ok now =>
                match mark_processed store idemp_key (now + ttl) with
                | .error text => (store, ⟨true, error_response text⟩)
                | .ok store => (store, ⟨true, ⟨true, "applied", false⟩⟩)

/-! ## Sending records once each -/

/-- When a request is checked and when its key is marked. -/
structure Clock where
  checked_at : Int
  marked_at : Int

/-- The calls of a request that the stores and the applier answer. -/
def Clock.calls (c : Clock) : ReplayCalls :=
  { check := .ok c.checked_at, apply := .ok true, mark := .ok c.marked_at }

/-- Send the records one after the other, without a key, the `i`-th of them at `clock i`. -/
def replay_all (md5_16 : String → String) (ttl : Int) (clock : Nat → Clock) :
    Nat → DedupStore → List ChangeRecord → List Reply
  | _, _, [] => []
  | i, store, r :: rs =>
      let (store', reply) := ReplayEvent md5_16 ttl store ⟨r, ""⟩ (clock i).calls
      reply :: replay_all md5_16 ttl clock (i + 1) store' rs

/-- Every record was handed to the applier and none was answered as a duplicate. -/
def AllApplied (replies : List Reply) : Prop :=
  ∀ reply ∈ replies, reply.handed = true ∧ reply.response.message ≠ "duplicate_skipped"

/-- The two records are of one table and have the same row data. -/
def SameRow (r r' : ChangeRecord) : Prop := r.table = r'.table ∧ data_str r = data_str r'

/-- No record repeats the table and row data of an earlier one whose key is still live: for
the last earlier occurrence, if its key fits the store, the key expired before the record
is checked. -/
def NoLiveRepeat (md5_16 : String → String) (ttl : Int) (clock : Nat → Clock)
    (records : List ChangeRecord) : Prop :=
  ∀ (i j : Nat) (r r' : ChangeRecord), j < i → records[i]? = some r → records[j]? = some r' →
    SameRow r' r → (∀ k x, j < k → k < i → records[k]? = some x → ¬ SameRow x r) →
    (compute_idempotency_key md5_16 r').length ≤ 255 →
    (clock j).marked_at + ttl ≤ (clock i).checked_at

/-! ## When keys coincide -/

variable {md5_16 : String → String} {ttl : Int} {clock : Nat → Clock}

theorem key_eq_iff (hlen : ∀ text, (md5_16 text).length = 16) {r r' : ChangeRecord}
    (hlsn : r.lsn = r'.lsn)
    (hinj : md5_16 (data_str r) = md5_16 (data_str r') → data_str r = data_str r') :
    compute_idempotency_key md5_16 r = compute_idempotency_key md5_16 r' ↔ SameRow r r' := by
  constructor
  · intro h
    -- the hash is the last 16 characters, so the table ends where it begins
    have hlist := congrArg String.toList h
    simp only [compute_idempotency_key, hlsn, String.toList_append, List.append_assoc,
      List.append_cancel_left_eq] at hlist
    rw [← List.append_assoc, ← List.append_assoc] at hlist
    have hsame : (md5_16 (data_str r)).toList.length = (md5_16 (data_str r')).toList.length := by
      rw [String.length_toList, String.length_toList, hlen, hlen]
    obtain ⟨htable, hhash⟩ := List.append_inj' hlist hsame
    exact ⟨String.ext (List.append_cancel_right htable), hinj (String.ext hhash)⟩
  · rintro ⟨htable, hdata⟩
    rw [compute_idempotency_key, compute_idempotency_key, hlsn, htable, hdata]

/-- A computed key ends in the hash, so nothing of it can be cut off. -/
theorem stored_key_computed (hlen : ∀ text, (md5_16 text).length = 16)
    (hhex : ∀ text, ' ' ∉ (md5_16 text).toList) (r : ChangeRecord) :
    stored_key (compute_idempotency_key md5_16 r) =
      if (compute_idempotency_key md5_16 r).length ≤ 255 then
        some (compute_idempotency_key md5_16 r)
      else none := by
  unfold stored_key
  split
  · rfl
  · rename_i hlong
    -- what is over the length ends with characters of the hash
    have hlist : (compute_idempotency_key md5_16 r).toList
        = (r.lsn ++ ":" ++ r.table ++ ":").toList ++ (md5_16 (data_str r)).toList := by
      rw [compute_idempotency_key, String.toList_append]
    have hsum : 255 < (r.lsn ++ ":" ++ r.table ++ ":").toList.length
        + (md5_16 (data_str r)).toList.length := by
      rw [← List.length_append, ← hlist, String.length_toList]
      omega
    rw [if_neg]
    rw [hlist, List.drop_append, List.all_append, Bool.and_eq_true]
    rintro ⟨-, hblank⟩
    have hhash : (md5_16 (data_str r)).toList.length = 16 := by
      rw [String.length_toList, hlen]
    obtain ⟨c, hc⟩ := List.exists_mem_of_length_pos
      (l := (md5_16 (data_str r)).toList.drop
        (255 - (r.lsn ++ ":" ++ r.table ++ ":").toList.length))
      (by rw [List.length_drop]; omega)
    have hblank' := List.all_eq_true.mp hblank c hc
    rw [beq_iff_eq] at hblank'
    exact hhex (data_str r) (hblank' ▸ List.mem_of_mem_drop hc)

/-! ## What the store holds -/

/-- The store after the records `ps` were all applied. -/
def store_after (md5_16 : String → String) (ttl : Int) (clock : Nat → Clock)
    (store : DedupStore) (ps : List ChangeRecord) : DedupStore :=
  ps.zipIdx.foldl (fun s p =>
    if (compute_idempotency_key md5_16 p.1).length ≤ 255 then
      s.set (compute_idempotency_key md5_16 p.1) ((clock p.2).marked_at + ttl)
    else s) store

theorem store_after_snoc (store : DedupStore) (ps : List ChangeRecord) (r : ChangeRecord) :
    store_after md5_16 ttl clock store (ps ++ [r]) =
      if (compute_idempotency_key md5_16 r).length ≤ 255 then
        (store_after md5_16 ttl clock store ps).set (compute_idempotency_key md5_16 r)
          ((clock ps.length).marked_at + ttl)
      else store_after md5_16 ttl clock store ps := by
  simp [store_after, List.zipIdx_append]

/-- A key that was not in the store at first is live exactly when it fits the store and the
last of the records that has it was marked less than the TTL ago. -/
theorem key_exists_store_after {store : DedupStore} {key : String} (ps : List ChangeRecord)
    (hfresh : store.get? key = none) (now : Int) :
    key_exists (store_after md5_16 ttl clock store ps) key now = true ↔
      key.length ≤ 255 ∧ ∃ j r', ps[j]? = some r' ∧ compute_idempotency_key md5_16 r' = key ∧
        (∀ k x, j < k → ps[k]? = some x → compute_idempotency_key md5_16 x ≠ key) ∧
        now < (clock j).marked_at + ttl := by
  -- on the records applied, the last one appended
  induction ps using List.reverseRecOn with
  | nil => simp [store_after, key_exists, hfresh]
  | append_singleton ps r ih =>
      rw [store_after_snoc]
      by_cases hkey : compute_idempotency_key md5_16 r = key
      · by_cases hfits : key.length ≤ 255
        · -- the last record has the key: its mark is the one read
          rw [if_pos (by rw [hkey]; exact hfits), hkey]
          simp only [key_exists, Dict.get?_set_self, decide_eq_true_eq]
          constructor
          · intro hnow
            refine ⟨hfits, ps.length, r, ?_, hkey, fun k x hk hx => ?_, hnow⟩
            · exact getElem?_snoc_iff.mpr (Or.inr ⟨rfl, rfl⟩)
            · have hlen := (List.getElem?_eq_some_iff.mp hx).1
              simp only [List.length_append, List.length_singleton] at hlen
              omega
          · rintro ⟨_, j, r', hj, _, hlast, hnow⟩
            have hjlen : j = ps.length := by
              have hlt := (List.getElem?_eq_some_iff.mp hj).1
              simp only [List.length_append, List.length_singleton] at hlt
              by_contra hne
              exact hlast ps.length r (by omega) (getElem?_snoc_iff.mpr (Or.inr ⟨rfl, rfl⟩)) hkey
            rwa [hjlen] at hnow
        · rw [if_neg (by rw [hkey]; exact hfits), ih]
          simp [hfits]
      · -- another key: the store is read as before
        have hget : (if (compute_idempotency_key md5_16 r).length ≤ 255 then
            (store_after md5_16 ttl clock store ps).set (compute_idempotency_key md5_16 r)
              ((clock ps.length).marked_at + ttl)
            else store_after md5_16 ttl clock store ps).get? key
            = (store_after md5_16 ttl clock store ps).get? key := by
          split
          · exact Dict.get?_set_of_ne _ _ (Ne.symm hkey)
          · rfl
        rw [key_exists, hget, ← key_exists, ih]
        refine and_congr_right fun _ => ?_
        constructor
        · rintro ⟨j, r', hj, hr', hlast, hnow⟩
          refine ⟨j, r', getElem?_snoc_iff.mpr (Or.inl hj), hr', fun k x hk hx => ?_, hnow⟩
          rcases getElem?_snoc_iff.mp hx with hx | ⟨_, rfl⟩
          · exact hlast k x hk hx
          · exact hkey
        · rintro ⟨j, r', hj, hr', hlast, hnow⟩
          rcases getElem?_snoc_iff.mp hj with hj | ⟨_, rfl⟩
          · exact ⟨j, r', hj, hr', fun k x hk hx =>
              hlast k x hk (getElem?_snoc_iff.mpr (Or.inl hx)), hnow⟩
          · exact absurd hr' hkey

/-! ## When all records are applied -/

/-- The spec of `ReplayEvent` for a request without a key whose calls are all answered. -/
theorem ReplayEvent_steady (hlen : ∀ text, (md5_16 text).length = 16)
    (hhex : ∀ text, ' ' ∉ (md5_16 text).toList) (store : DedupStore) (r : ChangeRecord) (c : Clock) :
    (key_exists store (compute_idempotency_key md5_16 r) c.checked_at = true →
      (ReplayEvent md5_16 ttl store ⟨r, ""⟩ c.calls).2.handed = false) ∧
    (key_exists store (compute_idempotency_key md5_16 r) c.checked_at = false →
      (ReplayEvent md5_16 ttl store ⟨r, ""⟩ c.calls).1 =
        (if (compute_idempotency_key md5_16 r).length ≤ 255 then
          store.set (compute_idempotency_key md5_16 r) (c.marked_at + ttl)
        else store) ∧
      (ReplayEvent md5_16 ttl store ⟨r, ""⟩ c.calls).2.handed = true ∧
      (ReplayEvent md5_16 ttl store ⟨r, ""⟩ c.calls).2.response.message ≠ "duplicate_skipped") := by
  constructor
  · intro hex
    simp [ReplayEvent, Clock.calls, hex]
  · intro hex
    by_cases hfits : (compute_idempotency_key md5_16 r).length ≤ 255
    · simp [ReplayEvent, Clock.calls, hex, mark_processed, stored_key_computed hlen hhex, hfits]
    · simp only [ReplayEvent, Clock.calls, hex, mark_processed, stored_key_computed hlen hhex,
        hfits, if_true, if_false, Bool.false_eq_true, true_and]
      decide

theorem allApplied_replay_all_cons (store : DedupStore) (i : Nat) (r : ChangeRecord)
    (rs : List ChangeRecord) :
    AllApplied (replay_all md5_16 ttl clock i store (r :: rs)) ↔
      ((ReplayEvent md5_16 ttl store ⟨r, ""⟩ (clock i).calls).2.handed = true ∧
        (ReplayEvent md5_16 ttl store ⟨r, ""⟩ (clock i).calls).2.response.message
          ≠ "duplicate_skipped") ∧
      AllApplied (replay_all md5_16 ttl clock (i + 1)
        (ReplayEvent md5_16 ttl store ⟨r, ""⟩ (clock i).calls).1 rs) := by
  simp only [AllApplied, replay_all, List.forall_mem_cons]

/-- Sending on from a prefix that was applied, the rest is applied exactly when no record
of it finds its key live. -/
theorem allApplied_replay_all_iff (hlen : ∀ text, (md5_16 text).length = 16)
    (hhex : ∀ text, ' ' ∉ (md5_16 text).toList) (store : DedupStore) (ps rs : List ChangeRecord) :
    AllApplied (replay_all md5_16 ttl clock ps.length
        (store_after md5_16 ttl clock store ps) rs) ↔
      ∀ i r, ps.length ≤ i → (ps ++ rs)[i]? = some r →
        key_exists (store_after md5_16 ttl clock store ((ps ++ rs).take i))
          (compute_idempotency_key md5_16 r) (clock i).checked_at = false := by
  -- on the records left: the first is applied if its key is not live, and joins the prefix
  induction rs generalizing ps with
  | nil =>
      simp only [replay_all, AllApplied, List.not_mem_nil, false_implies, implies_true,
        List.append_nil, true_iff]
      intro i r hi hr
      rw [List.getElem?_eq_none hi] at hr
      cases hr
  | cons r rs ih =>
      obtain ⟨hlive, hdead⟩ := @ReplayEvent_steady md5_16 ttl hlen hhex
        (store_after md5_16 ttl clock store ps) r (clock ps.length)
      have hat : (ps ++ r :: rs)[ps.length]? = some r := by simp
      have htake : (ps ++ r :: rs).take ps.length = ps := by simp
      cases hex : key_exists (store_after md5_16 ttl clock store ps)
          (compute_idempotency_key md5_16 r) (clock ps.length).checked_at with
      | true =>
          have hhanded := hlive hex
          constructor
          · intro hall
            have := ((allApplied_replay_all_cons ..).mp hall).1.1
            rw [hhanded] at this
            cases this
          · intro hnone
            have := hnone ps.length r (Nat.le_refl _) hat
            rw [htake, hex] at this
            cases this
      | false =>
          obtain ⟨hstore, hhanded, hmsg⟩ := hdead hex
          have hnext := ih (ps ++ [r])
          rw [store_after_snoc, ← hstore, List.append_assoc, List.singleton_append,
            List.length_append, List.length_singleton] at hnext
          rw [allApplied_replay_all_cons, and_iff_right ⟨hhanded, hmsg⟩, hnext]
          constructor
          · intro h i x hi hx
            rcases Nat.eq_or_lt_of_le hi with rfl | hlt
            · rw [hat, Option.some.injEq] at hx
              subst hx
              rw [htake, hex]
            · exact h i x hlt hx
          · exact fun h i x hi hx => h i x (by omega) hx

/-- **When every first delivery is applied.** The records of a payload, sent once each and
in order to a store that holds no key of their LSN, are all handed to the applier exactly
when none repeats the table and row data of an earlier one whose key is still live. The
hash is a hexadecimal text, only assumed not to collide on the row data of these records. -/
theorem first_deliveries_applied_iff (host : Host) (now_ms : Int) (payload : Json) (lsn : Nat)
    (records : List ChangeRecord) (md5_16 : String → String) (ttl : Int) (clock : Nat → Clock)
    (store : DedupStore)
    (hparse : parse_wal2json_v2 host now_ms payload lsn = some records)
    (hlen : ∀ text, (md5_16 text).length = 16)
    (hhex : ∀ text, ' ' ∉ (md5_16 text).toList)
    (hinj : ∀ r ∈ records, ∀ r' ∈ records,
      md5_16 (data_str r) = md5_16 (data_str r') → data_str r = data_str r')
    (hfresh : ∀ r : ChangeRecord, r.lsn = toString lsn →
      store.get? (compute_idempotency_key md5_16 r) = none) :
    AllApplied (replay_all md5_16 ttl clock 0 store records) ↔
      NoLiveRepeat md5_16 ttl clock records := by
  have hlsn := parse_lsn hparse
  have hkeys : ∀ r ∈ records, ∀ r' ∈ records,
      (compute_idempotency_key md5_16 r = compute_idempotency_key md5_16 r' ↔ SameRow r r') :=
    fun r hr r' hr' => key_eq_iff hlen (by rw [hlsn r hr, hlsn r' hr']) (hinj r hr r' hr')
  have hmem : ∀ {i : Nat} {r : ChangeRecord}, records[i]? = some r → r ∈ records :=
    fun h => List.mem_of_getElem? h
  have hall := @allApplied_replay_all_iff md5_16 ttl clock hlen hhex store [] records
  have hstart : store_after md5_16 ttl clock store [] = store := rfl
  rw [hstart, List.length_nil, List.nil_append] at hall
  rw [hall]
  constructor
  · intro h i j r r' hji hr hr' hsame hlast hfits
    have hdead := h i r (Nat.zero_le i) hr
    by_contra hnow
    have hkey := (hkeys r' (hmem hr') r (hmem hr)).mpr hsame
    -- a repeat that is still live would be answered as a duplicate
    have hlive := (@key_exists_store_after md5_16 ttl clock store _
      (records.take i) (hfresh r (hlsn r (hmem hr))) (clock i).checked_at).mpr
      ⟨by rwa [← hkey], j, r', by rw [List.getElem?_take_of_lt hji]; exact hr', hkey, ?_,
        by omega⟩
    · rw [hdead] at hlive
      cases hlive
    · intro k x hk hx
      have hki : k < i := by
        have := (List.getElem?_eq_some_iff.mp hx).1
        rw [List.length_take] at this
        omega
      rw [List.getElem?_take_of_lt hki] at hx
      rw [Ne, hkeys x (hmem hx) r (hmem hr)]
      exact hlast k x hk hki hx
  · intro h i r _ hr
    by_contra hex
    rw [Bool.not_eq_false] at hex
    obtain ⟨hfits, j, r', hj, hkey, hlast, hnow⟩ := (key_exists_store_after (records.take i)
      (hfresh r (hlsn r (hmem hr))) (clock i).checked_at).mp hex
    have hji : j < i := by
      have := (List.getElem?_eq_some_iff.mp hj).1
      rw [List.length_take] at this
      omega
    rw [List.getElem?_take_of_lt hji] at hj
    -- the key found live was marked for an earlier record with the same row data
    have hexp := h i j r r' hji hr hj ((hkeys r' (hmem hj) r (hmem hr)).mp hkey)
      (fun k x hk hki hx hsame => hlast k x hk (by rw [List.getElem?_take_of_lt hki]; exact hx)
        ((hkeys x (hmem hx) r (hmem hr)).mpr hsame)) (by rwa [hkey])
    omega

/-! ### Two payloads -/

/-- A change of the row with key `id` of `public.t`; `cells` names the array it is in. -/
def rowChange (kind cells : String) (id : Int) : Json :=
  .obj [("kind", .str kind), ("schema", .str "public"), ("table", .str "t"),
    (cells, .arr [.obj [("name", .str "id"), ("value", .int id)]])]

/-- The hash on the row data of these examples. -/
def md5Prefix (text : String) : String :=
  if text = "id=1" then "681afe34439cf1a3"
  else if text = "id=2" then "0b30ef0e4bad9670"
  else "d41d8cd98f00b204"

theorem length_md5Prefix (text : String) : (md5Prefix text).length = 16 := by
  unfold md5Prefix
  split
  · decide
  · split
    · decide
    · decide

theorem blank_notMem_md5Prefix (text : String) : ' ' ∉ (md5Prefix text).toList := by
  unfold md5Prefix
  split
  · decide
  · split
    · decide
    · decide

/-- The record of an insert of `rowChange`. -/
def insertedRow (id : String) : ChangeRecord :=
  { lsn := "300", commit_time := 0, table := "public.t", operation := "INSERT",
    old := Dict.empty, new := Dict.empty.set "id" id }

/-- Two inserts of different rows, at one moment and with a TTL of seven days. -/
theorem two_inserts_applied :
    AllApplied (replay_all md5Prefix 604800 (fun _ => ⟨0, 0⟩) 0 Dict.empty
      [insertedRow "1", insertedRow "2"]) := by
  refine (first_deliveries_applied_iff bareHost 0
    (.obj [("change", .arr [rowChange "I" "columns" 1, rowChange "I" "columns" 2])]) 300
    [insertedRow "1", insertedRow "2"] md5Prefix 604800 (fun _ => ⟨0, 0⟩) Dict.empty
    (by decide) length_md5Prefix blank_notMem_md5Prefix (by decide) (fun _ _ => rfl)).mpr ?_
  intro i j r r' hji hr hr' hsame
  have hi := (List.getElem?_eq_some_iff.mp hr).1
  simp only [List.length_cons, List.length_nil] at hi
  obtain rfl : i = 1 := by omega
  obtain rfl : j = 0 := by omega
  cases hr
  cases hr'
  exact absurd hsame.2 (by decide)

/-- A transaction that inserts a row and deletes it again: the delete is answered as a
duplicate of the insert and never handed to the applier. -/
theorem delete_taken_for_insert :
    ∃ records, parse_wal2json_v2 bareHost 0
        (.obj [("change", .arr [rowChange "I" "columns" 1, rowChange "D" "identity" 1])]) 300
        = some records ∧
      replay_all md5Prefix 604800 (fun _ => ⟨0, 0⟩) 0 Dict.empty records =
        [⟨true, ⟨true, "applied", false⟩⟩, ⟨false, ⟨true, "duplicate_skipped", true⟩⟩] := by
  exact ⟨_, rfl, by decide⟩

end WalStream.Replayer
