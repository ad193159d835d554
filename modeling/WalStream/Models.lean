/-
`walstream_proto.models`: the record model the Python services use for `ChangeRecord`.

`operation` is a member of the enumeration `Operation` here and a string in the protobuf
message, so reading a message can fail; the empty string is read as `INSERT`.

`idempotency_key` joins the LSN, the table and the values of the primary-key fields with
`:`. The key identifies the change only as far as the joined text determines its parts: two
changes collide when their parts differ but fall into the same pieces between two colons.
Without primary-key fields the key ends in `hash(frozenset(...))`, and the hash of a string
is salted by the process, so the hash function is a parameter, one per process.
-/
import WalStream.Proto
import WalStream.Lib.DateTime
import WalStream.Lib.Joined
import Mathlib.Data.Finset.Dedup

set_option autoImplicit false

namespace WalStream.Models

open Lib

/-! ## The model -/

/-- Database operation types captured by CDC. -/
inductive Operation
  | INSERT
  | UPDATE
  | DELETE
  | TRUNCATE
deriving DecidableEq

def Operation.value : Operation → String
  | .INSERT => "INSERT"
  | .UPDATE => "UPDATE"
  | .DELETE => "DELETE"
  | .TRUNCATE => "TRUNCATE"

/-- `Operation(value)`: the member with that value. -/
def Operation.ofValue (value : String) : Option Operation :=
  [Operation.INSERT, .UPDATE, .DELETE, .TRUNCATE].find? fun op => decide (op.value = value)

structure ChangeRecordModel where
  lsn : String
  commit_time : Int
  table : String
  operation : Operation
  old : Dict String String
  new : Dict String String
deriving DecidableEq

/-- `from_protobuf`; `none` is the `ValueError` of a string that is no operation. -/
def from_protobuf (pb : ChangeRecord) : Option ChangeRecordModel :=
  let operation :=
    if pb.operation ≠ "" then Operation.ofValue pb.operation else some Operation.INSERT
  operation.map fun operation =>
    { lsn := pb.lsn, commit_time := pb.commit_time, table := pb.table,
      operation := operation, old := pb.old, new := pb.new }

def to_protobuf (r : ChangeRecordModel) : ChangeRecord :=
  { lsn := r.lsn, commit_time := r.commit_time, table := r.table,
    operation := r.operation.value, old := r.old, new := r.new }

/-- `data`: `new` for INSERT/UPDATE, `old` for DELETE. -/
def data (r : ChangeRecordModel) : Dict String String :=
  if r.operation ≠ .DELETE then r.new else r.old

/-- `str(data.get(f, ""))` for every field. -/
def field_values (fields : List String) (r : ChangeRecordModel) : List String :=
  fields.map fun f => ((data r).get? f).getD ""

/-- `idempotency_key` in a process where `hash` is the hash of a set of items. -/
def idempotency_key (hash : Finset (String × String) → Int)
    (primary_key_fields : Option (List String)) (r : ChangeRecordModel) : String :=
  let fields := primary_key_fields.getD []
  let pk_values :=
    if fields ≠ [] then ":".intercalate (field_values fields r)
    else toString (hash (data r).entries.toFinset)
  r.lsn ++ ":" ++ r.table ++ ":" ++ pk_values

/-! ## Messages -/

@[simp] theorem Operation.ofValue_value (op : Operation) : Operation.ofValue op.value = some op := by
  cases op <;> decide

theorem Operation.value_ne_empty (op : Operation) : op.value ≠ "" := by
  cases op <;> decide

/-- What is a member's value is the value of the member read. -/
theorem Operation.value_of_ofValue {value : String} {op : Operation}
    (h : Operation.ofValue value = some op) : op.value = value := by
  have := List.find?_some h
  simpa using this

/-- **Round trip.** A model written as a message is read back. -/
theorem from_protobuf_to_protobuf (r : ChangeRecordModel) :
    from_protobuf (to_protobuf r) = some r := by
  simp [from_protobuf, to_protobuf, Operation.value_ne_empty]

/-- A message is accepted when its operation is a member's value, or empty. -/
theorem from_protobuf_isSome_iff (pb : ChangeRecord) :
    (from_protobuf pb).isSome = true ↔ pb.operation = "" ∨ ∃ op : Operation, op.value = pb.operation := by
  by_cases h : pb.operation = ""
  · simp [from_protobuf, h]
  · simp only [from_protobuf, h, ne_eq, not_false_eq_true, if_true, Option.isSome_map, false_or]
    constructor
    · intro hop
      obtain ⟨op, hop⟩ := Option.isSome_iff_exists.mp hop
      exact ⟨op, Operation.value_of_ofValue hop⟩
    · rintro ⟨op, hop⟩
      rw [← hop, Operation.ofValue_value]
      rfl

/-! ## The parts of a key -/

/-- The parts of the key: LSN, table, and the value of every field. -/
def parts (fields : List String) (r : ChangeRecordModel) : List (List Char) :=
  r.lsn.toList :: r.table.toList :: (field_values fields r).map String.toList

/-- The fields are columns of the record's row. -/
def Present (fields : List String) (r : ChangeRecordModel) : Prop :=
  ∀ f ∈ fields, ((data r).get? f).isSome = true

/-- The same row change: equal LSN, table and primary-key values. -/
def SameChange (fields : List String) (r r' : ChangeRecordModel) : Prop :=
  r.lsn = r'.lsn ∧ r.table = r'.table ∧ field_values fields r = field_values fields r'

/-- The parts differ, but fall into the same pieces between two colons. -/
def Recut (fields : List String) (r r' : ChangeRecordModel) : Prop :=
  parts fields r ≠ parts fields r' ∧ pieces ':' (parts fields r) = pieces ':' (parts fields r')

variable {hash hash' : Finset (String × String) → Int} {fields : List String}
  {r r' : ChangeRecordModel}

theorem length_parts (fields : List String) (r : ChangeRecordModel) :
    (parts fields r).length = fields.length + 2 := by
  simp [parts, field_values]

theorem parts_eq_iff : parts fields r = parts fields r' ↔ SameChange fields r r' := by
  simp only [parts, SameChange, List.cons.injEq, String.toList_inj]
  rw [(List.map_injective_iff.mpr fun _ _ => String.toList_injective).eq_iff]

/-- With primary-key fields the key is the parts joined. -/
theorem idempotency_key_toList (hne : fields ≠ []) (r : ChangeRecordModel) :
    (idempotency_key hash (some fields) r).toList = [':'].intercalate (parts fields r) := by
  have hvalues : (field_values fields r).map String.toList ≠ [] := by
    simpa [field_values] using hne
  rw [parts, List.intercalate_cons_cons, List.intercalate_cons_of_ne_nil hvalues]
  simp [idempotency_key, hne, String.toList_intercalate]

/-- Keys are equal when the parts fall into the same pieces. -/
theorem key_eq_iff_pieces (hne : fields ≠ []) :
    idempotency_key hash (some fields) r = idempotency_key hash' (some fields) r' ↔
      pieces ':' (parts fields r) = pieces ':' (parts fields r') := by
  rw [← String.toList_inj, idempotency_key_toList hne, idempotency_key_toList hne]
  exact joined_eq_joined_iff (List.cons_ne_nil _ _) (List.cons_ne_nil _ _)

/-! ## A record for any parts -/

/-- The insertion of a row with these values in the fields. -/
def record_of (lsn table : String) (fields values : List String) : ChangeRecordModel :=
  { lsn := lsn, commit_time := 0, table := table, operation := .INSERT, old := Dict.empty,
    new := Dict.ofPairs (fields.zip values) }

theorem get?_record_of {lsn table : String} {values : List String} (hnodup : fields.Nodup)
    (hlen : values.length = fields.length) {i : Nat} (hi : i < fields.length) :
    (data (record_of lsn table fields values)).get? fields[i] = some values[i] := by
  have hfst : (fields.zip values).map Prod.fst = fields :=
    List.map_fst_zip (by omega)
  rw [Dict.get?_eq_some_iff]
  change _ ∈ (Dict.ofPairs (fields.zip values)).entries
  rw [Dict.entries_ofPairs_of_nodup (by rwa [hfst]), List.mem_iff_getElem]
  exact ⟨i, by rw [List.length_zip]; omega, List.getElem_zip⟩

theorem field_values_record_of {lsn table : String} {values : List String}
    (hnodup : fields.Nodup) (hlen : values.length = fields.length) :
    field_values fields (record_of lsn table fields values) = values := by
  apply List.ext_getElem
  · simp [field_values, hlen]
  · intro i hi _
    have hi' : i < fields.length := by simpa [field_values] using hi
    simp [field_values, get?_record_of hnodup hlen hi']

theorem present_record_of {lsn table : String} {values : List String} (hnodup : fields.Nodup)
    (hlen : values.length = fields.length) :
    Present fields (record_of lsn table fields values) := by
  intro f hf
  obtain ⟨i, hi, rfl⟩ := List.getElem_of_mem hf
  rw [get?_record_of hnodup hlen hi]
  rfl

/-- Any list of the right number of parts is the list of parts of some record. -/
theorem exists_record_of_parts {ps : List (List Char)} (hnodup : fields.Nodup)
    (hlen : ps.length = fields.length + 2) : ∃ r, Present fields r ∧ parts fields r = ps := by
  match ps, hlen with
  | lsn :: table :: values, hlen =>
      have hvalues : (values.map String.ofList).length = fields.length := by simpa using hlen
      refine ⟨record_of (String.ofList lsn) (String.ofList table) fields (values.map String.ofList),
        present_record_of hnodup hvalues, ?_⟩
      rw [parts, field_values_record_of hnodup hvalues]
      simp [record_of, List.map_map, Function.comp_def]

/-! ## What a key identifies -/

/-- With primary-key fields the key identifies the change unless the two records' parts
are cut from the same pieces. -/
theorem key_identifies_iff (hne : fields ≠ []) :
    (idempotency_key hash (some fields) r = idempotency_key hash' (some fields) r' ↔
      SameChange fields r r') ↔ ¬ Recut fields r r' := by
  rw [key_eq_iff_pieces hne, ← parts_eq_iff, Recut, not_and', not_not]
  constructor
  · intro h hpieces
    exact h.mp hpieces
  · intro h
    exact ⟨h, fun hparts => by rw [hparts]⟩

/-- A record's key is told from every other exactly when no part of it contains a colon. -/
theorem key_unique_iff (hne : fields ≠ []) (hnodup : fields.Nodup)
    (hash hash' : Finset (String × String) → Int) :
    (∀ r', Present fields r' → (idempotency_key hash (some fields) r =
      idempotency_key hash' (some fields) r' ↔ SameChange fields r r')) ↔
      ∀ part ∈ parts fields r, ':' ∉ part := by
  constructor
  · intro hkey part hpart hcolon
    -- a piece of this part can go to a neighbour, and a record has the parts so cut
    obtain ⟨ps, hlen, hdiff, hjoin⟩ :=
      exists_recut ⟨part, hpart, hcolon⟩ (by rw [length_parts]; omega)
    obtain ⟨r', hpresent, hparts⟩ :=
      exists_record_of_parts hnodup (hlen.trans (length_parts fields r))
    rw [← hparts] at hdiff hjoin
    have hsame := (hkey r' hpresent).mp (by
      rw [← String.toList_inj, idempotency_key_toList hne, idempotency_key_toList hne, hjoin])
    exact hdiff (parts_eq_iff.mpr hsame).symm
  · intro hfree r' _
    rw [← parts_eq_iff, ← String.toList_inj, idempotency_key_toList hne,
      idempotency_key_toList hne]
    constructor
    · exact eq_of_joined_eq (List.cons_ne_nil _ _) (by rw [length_parts, length_parts]) hfree
    · intro hparts
      rw [hparts]

/-- Without primary-key fields the keys of equal rows agree when the hashes do. -/
theorem fallback_key_iff {none_or_empty none_or_empty' : Option (List String)}
    (hf : none_or_empty.getD [] = []) (hf' : none_or_empty'.getD [] = [])
    (hlsn : r.lsn = r'.lsn) (htable : r.table = r'.table)
    (hdata : Dict.SameMap (data r) (data r')) :
    idempotency_key hash none_or_empty r = idempotency_key hash' none_or_empty' r' ↔
      hash (data r).entries.toFinset = hash' (data r).entries.toFinset := by
  have hitems : (data r').entries.toFinset = (data r).entries.toFinset :=
    (List.toFinset_eq_of_perm _ _ (Dict.sameMap_iff_perm.mp hdata)).symm
  simp only [idempotency_key, hf, hf', ne_eq, not_true_eq_false, if_false, hlsn, htable, hitems]
  rw [String.append_right_inj]
  exact ⟨int_toString_injective, fun h => by rw [h]⟩

/-- Both halves fail: key values with a colon in them, and one row hashed by two processes
(with the seeds 0 and 1). -/
theorem idempotency_key_collision :
    (¬ ∀ (r r' : ChangeRecordModel) (fields : List String) (hash hash'), fields ≠ [] →
        Present fields r → Present fields r' →
        (idempotency_key hash (some fields) r = idempotency_key hash' (some fields) r' ↔
          SameChange fields r r')) ∧
      ¬ ∀ (r r' : ChangeRecordModel) (hash hash'), r.lsn = r'.lsn → r.table = r'.table →
        Dict.SameMap (data r) (data r') →
          idempotency_key hash none r = idempotency_key hash' none r' := by
  constructor
  · intro hkeys
    have h := (hkeys (record_of "0/1" "public.t" ["a", "b"] ["x:y", "z"])
      (record_of "0/1" "public.t" ["a", "b"] ["x", "y:z"]) ["a", "b"] (fun _ => 0) (fun _ => 0)
      (by decide) (present_record_of (by decide) rfl) (present_record_of (by decide) rfl)).mp
      (by decide)
    exact absurd h.2.2 (by decide)
  · intro hkeys
    have h := hkeys (record_of "0/1" "public.t" ["id"] ["1"])
      (record_of "0/1" "public.t" ["id"] ["1"]) (fun _ => 3203903552856991594)
      (fun _ => 4236072392992989430) rfl rfl fun _ => rfl
    rw [fallback_key_iff rfl rfl rfl rfl fun _ => rfl] at h
    exact absurd h (by decide)

/-- **What the key identifies.** Two records with the fields present have equal keys
exactly for the same change, unless their parts are cut from the same pieces; against all
records at once that asks for parts without a colon. Without fields, equal rows have equal
keys exactly when the two processes hash the row alike. -/
theorem idempotency_key_exact (r r' : ChangeRecordModel)
    (hash hash' : Finset (String × String) → Int) :
    (∀ fields, fields ≠ [] → Present fields r → Present fields r' →
      ((idempotency_key hash (some fields) r = idempotency_key hash' (some fields) r' ↔
        SameChange fields r r') ↔ ¬ Recut fields r r')) ∧
    (∀ fields, fields ≠ [] → fields.Nodup → Present fields r →
      ((∀ r', Present fields r' → (idempotency_key hash (some fields) r =
          idempotency_key hash' (some fields) r' ↔ SameChange fields r r')) ↔
        ∀ part ∈ parts fields r, ':' ∉ part)) ∧
    (r.lsn = r'.lsn → r.table = r'.table → Dict.SameMap (data r) (data r') →
      ∀ fields fields' : Option (List String), fields.getD [] = [] → fields'.getD [] = [] →
      (idempotency_key hash fields r = idempotency_key hash' fields' r' ↔
        hash (data r).entries.toFinset = hash' (data r).entries.toFinset)) := by
  refine ⟨?_, ?_, ?_⟩
  · intro fields hne _ _
    exact key_identifies_iff hne
  · intro fields hne hnodup _
    exact key_unique_iff hne hnodup hash hash'
  · intro hlsn htable hdata fields fields' hf hf'
    exact fallback_key_iff hf hf' hlsn htable hdata

/-- The hypotheses are met: plain key values, and one row in one process. -/
theorem idempotency_key_sample :
    (idempotency_key (fun _ => 0) (some ["id"]) (record_of "0/1" "public.t" ["id"] ["1"])
        = idempotency_key (fun _ => 0) (some ["id"]) (record_of "0/1" "public.t" ["id"] ["2"]) ↔
      SameChange ["id"] (record_of "0/1" "public.t" ["id"] ["1"])
        (record_of "0/1" "public.t" ["id"] ["2"])) ∧
    (∀ r', Present ["id"] r' →
      (idempotency_key (fun _ => 0) (some ["id"]) (record_of "01" "public.t" ["id"] ["1"])
          = idempotency_key (fun _ => 0) (some ["id"]) r' ↔
        SameChange ["id"] (record_of "01" "public.t" ["id"] ["1"]) r')) ∧
    idempotency_key (fun _ => 7) none (record_of "0/1" "public.t" ["id"] ["1"])
      = idempotency_key (fun _ => 7) (some []) (record_of "0/1" "public.t" ["id"] ["1"]) := by
  have hpresent : ∀ lsn v : String, Present ["id"] (record_of lsn "public.t" ["id"] [v]) :=
    fun lsn v => present_record_of (by decide) rfl
  refine ⟨?_, ?_, ?_⟩
  · refine ((idempotency_key_exact _ _ _ _).1 ["id"] (by decide) (hpresent "0/1" "1")
      (hpresent "0/1" "2")).mpr ?_
    rintro ⟨_, hpieces⟩
    exact absurd hpieces (by decide)
  · exact ((idempotency_key_exact _ (record_of "01" "public.t" ["id"] ["1"]) _ _).2.1 ["id"]
      (by decide) (by decide) (hpresent "01" "1")).mpr (by decide)
  · exact ((idempotency_key_exact _ _ _ _).2.2 rfl rfl (fun _ => rfl) none (some []) rfl rfl).mpr rfl

end WalStream.Models
