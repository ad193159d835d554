/-
The operations of a `ChangeRecord`: what the ingestor writes and what its readers take.

Three places hold a copy of the vocabulary. The ingestor maps the action letters of
wal2json to the operation names and hands every other text on as it is; the applier
dispatches on the four names; `ChangeRecordModel` looks the name up in an enumeration and
reads the empty string as `INSERT`. The two readers agree on every string but the empty
one. What the ingestor hands on is in the vocabulary exactly when the payload's actions
are: letters or names. The spelling of format version 1 (`insert`, `update`, `delete`), for
which the parser reads the other members of a change, is not.
-/
import WalStream.Ingest.Parse
import WalStream.Replayer.Applier
import WalStream.Models

set_option autoImplicit false

namespace WalStream.Pipeline

open Lib Ingest Replayer Models

/-! ## The applier's dispatch -/

/-- What the applier dispatches on: the handler of an operation. -/
def handler (operation : String) : Option (ChangeRecord → Option Statement) :=
  if operation = "INSERT" then some apply_insert
  else if operation = "UPDATE" then some apply_update
  else if operation = "DELETE" then some apply_delete
  else if operation = "TRUNCATE" then some apply_truncate
  else none

section

variable {ι : Type} [DecidableEq ι] [Fintype ι] {V : ι → Type} [∀ i, DecidableEq (V i)]
variable {σ : TableSchema V}

/-- `apply` runs the handler of the operation, and refuses an operation without one. -/
theorem apply_eq_handler (cat : Catalog V) (t : Table σ) (event : ChangeRecord) :
    apply cat t event =
      match handler event.operation with
      | some f => run cat t (f event)
      | none => (t, false) := by
  unfold apply handler
  split_ifs <;> rfl

end

/-- The operations with a handler are the values of the enumeration. -/
theorem handler_isSome_iff (operation : String) :
    (handler operation).isSome = true ↔ ∃ op : Operation, op.value = operation := by
  constructor
  · intro h
    unfold handler at h
    split_ifs at h with h₁ h₂ h₃ h₄
    · exact ⟨.INSERT, h₁.symm⟩
    · exact ⟨.UPDATE, h₂.symm⟩
    · exact ⟨.DELETE, h₃.symm⟩
    · exact ⟨.TRUNCATE, h₄.symm⟩
    · cases h
  · rintro ⟨op, rfl⟩
    cases op <;> decide

/-- A record both readers take: the applier dispatches on its operation, and the model
accepts the message. -/
def Consumable (r : ChangeRecord) : Prop :=
  (handler r.operation).isSome = true ∧ (from_protobuf r).isSome = true

theorem consumable_iff (r : ChangeRecord) :
    Consumable r ↔ ∃ op : Operation, op.value = r.operation := by
  rw [Consumable, handler_isSome_iff, from_protobuf_isSome_iff]
  constructor
  · exact And.left
  · intro h
    exact ⟨h, Or.inr h⟩

/-- A record that cannot be consumed fails at every replay, whatever the table holds. -/
theorem apply_of_not_consumable {ι : Type} [DecidableEq ι] [Fintype ι] {V : ι → Type}
    [∀ i, DecidableEq (V i)] {σ : TableSchema V} (cat : Catalog V) (t : Table σ)
    {event : ChangeRecord} (h : ¬ Consumable event) : apply cat t event = (t, false) := by
  rw [consumable_iff, ← handler_isSome_iff, Option.not_isSome_iff_eq_none] at h
  rw [apply_eq_handler, h]

/-- The two readers agree on every operation but the empty string. -/
theorem readers_agree_iff (r : ChangeRecord) :
    ((handler r.operation).isSome = true ↔ (from_protobuf r).isSome = true) ↔
      r.operation ≠ "" := by
  rw [handler_isSome_iff, from_protobuf_isSome_iff]
  constructor
  · intro h hempty
    obtain ⟨op, hop⟩ := h.mpr (Or.inl hempty)
    exact op.value_ne_empty (hop.trans hempty)
  · intro h
    rw [or_iff_right h]

/-! ## What the ingestor hands on -/

/-- The action of a change, the member of format version 1 first. -/
def action_of (change : Json) : Option Json := do
  change.getD "kind" (← change.getD "action" (.str ""))

/-- The changes of a payload. -/
def changes_of (payload : Json) : List Json :=
  ((payload.getD "change" (.arr [])).bind Json.iter).getD []

/-- The action letters, and the operation names themselves. -/
def vocabulary : List String :=
  ["I", "U", "D", "T", "INSERT", "UPDATE", "DELETE", "TRUNCATE"]

/-- The action of the change is a letter or a name. -/
def InVocabulary (change : Json) : Prop := ∃ s ∈ vocabulary, action_of change = some (.str s)

theorem mem_vocabulary_iff (s : String) :
    s ∈ vocabulary ↔ ∃ op : Operation, op.value = (ACTION_MAP.lookup s).getD s := by
  constructor
  · intro h
    simp only [vocabulary, List.mem_cons, List.not_mem_nil, or_false] at h
    rcases h with rfl | rfl | rfl | rfl | rfl | rfl | rfl | rfl
    · exact ⟨.INSERT, by decide⟩
    · exact ⟨.UPDATE, by decide⟩
    · exact ⟨.DELETE, by decide⟩
    · exact ⟨.TRUNCATE, by decide⟩
    · exact ⟨.INSERT, by decide⟩
    · exact ⟨.UPDATE, by decide⟩
    · exact ⟨.DELETE, by decide⟩
    · exact ⟨.TRUNCATE, by decide⟩
  · rintro ⟨op, hop⟩
    by_contra h
    simp only [vocabulary, List.mem_cons, List.not_mem_nil, or_false, not_or] at h
    obtain ⟨hI, hU, hD, hT, hinsert, hupdate, hdelete, htruncate⟩ := h
    -- what is no letter is handed on, and it is no name either
    have hlookup : ACTION_MAP.lookup s = none := by
      simp [ACTION_MAP, List.lookup_cons, beq_eq_false_iff_ne.mpr hI, beq_eq_false_iff_ne.mpr hU,
        beq_eq_false_iff_ne.mpr hD, beq_eq_false_iff_ne.mpr hT]
    rw [hlookup, Option.getD_none] at hop
    subst hop
    cases op with
    | INSERT => exact hinsert rfl
    | UPDATE => exact hupdate rfl
    | DELETE => exact hdelete rfl
    | TRUNCATE => exact htruncate rfl

variable {host : Host} {now_ms : Int} {payload : Json} {lsn : Nat} {records : List ChangeRecord}

/-- The operation of a record is made of the action of its change. -/
theorem parse_change_operation {commit_time : Int} {change : Json} {r : ChangeRecord}
    (h : parse_change host lsn commit_time change = some r) :
    ∃ action, action_of change = some action ∧ operation_of action = some r.operation := by
  simp only [parse_change, Option.bind_eq_bind, Option.bind_eq_some_iff, Option.pure_def,
    Option.some.injEq] at h
  obtain ⟨action₀, haction₀, action, haction, _, _, _, _, _, _, _, _, operation, hop, rfl⟩ := h
  refine ⟨action, ?_, hop⟩
  rw [action_of, haction₀]
  exact haction

/-- A record can be consumed exactly when the action of its change is in the vocabulary. -/
theorem consumable_iff_inVocabulary {commit_time : Int} {change : Json} {r : ChangeRecord}
    (h : parse_change host lsn commit_time change = some r) :
    Consumable r ↔ InVocabulary change := by
  obtain ⟨action, haction, hop⟩ := parse_change_operation h
  rw [consumable_iff, InVocabulary, haction]
  cases action with
  | str s =>
      simp only [operation_of, Option.some.injEq] at hop
      rw [← hop, ← mem_vocabulary_iff]
      simp
  | null =>
      -- an unset operation is the empty string
      simp only [operation_of, Option.some.injEq] at hop
      rw [← hop]
      simp [Operation.value_ne_empty]
  | bool _ => cases hop
  | int _ => cases hop
  | float _ => cases hop
  | arr _ => cases hop
  | obj _ => cases hop

/-- The records of a payload can all be consumed exactly when its actions are all in the
vocabulary. -/
theorem parse_consumable_iff (h : parse_wal2json_v2 host now_ms payload lsn = some records) :
    (∀ r ∈ records, Consumable r) ↔ ∀ change ∈ changes_of payload, InVocabulary change := by
  simp only [parse_wal2json_v2, Option.bind_eq_bind, Option.bind_eq_some_iff] at h
  obtain ⟨commit_time, _, changes, hchanges, items, hitems, hmap⟩ := h
  rw [changes_of, hchanges, Option.bind_some, hitems, Option.getD_some]
  exact forall_mapM_iff hmap fun _ _ => consumable_iff_inVocabulary

/-! ## The vocabulary -/

/-- A payload with one change of that action. -/
def payload_of (action : String) : Json :=
  .obj [("change", .arr [.obj [("kind", .str action), ("schema", .str "public"),
    ("table", .str "t"), ("columnnames", .arr [.str "id"]), ("columnvalues", .arr [.int 1])]])]

/-- The record the parser makes of it. -/
def record_of_action (operation : String) : ChangeRecord :=
  { lsn := "7", commit_time := 0, table := "public.t", operation := operation,
    old := Dict.empty, new := Dict.empty.set "id" "1" }

theorem parse_payload_of (action : String) :
    parse_wal2json_v2 bareHost 0 (payload_of action) 7 =
      some [record_of_action ((ACTION_MAP.lookup action).getD action)] := rfl

/-- The spelling of format version 1 is parsed and no reader takes it; and the empty
operation is one to the model and none to the applier. -/
theorem vocabulary_drifts :
    (¬ ∀ host now_ms payload lsn records,
        parse_wal2json_v2 host now_ms payload lsn = some records → ∀ r ∈ records, Consumable r) ∧
      ¬ ∀ r : ChangeRecord, (handler r.operation).isSome = true ↔ (from_protobuf r).isSome = true := by
  constructor
  · intro h
    have hcons := h bareHost 0 (payload_of "insert") 7 _ (parse_payload_of "insert") _
      (List.mem_singleton.mpr rfl)
    exact absurd hcons.1 (by decide)
  · intro h
    exact absurd (h { sampleRecord "1" with operation := "" }) (by decide)

/-- **The vocabulary.** The records of a payload can all be consumed exactly when every
change's action is a letter or a name of the vocabulary, and the readers agree exactly on
the strings that are not empty. -/
theorem captured_consumable_iff {host : Host} {now_ms : Int} {payload : Json} {lsn : Nat}
    {records : List ChangeRecord}
    (h : parse_wal2json_v2 host now_ms payload lsn = some records) (r : ChangeRecord) :
    ((∀ r ∈ records, Consumable r) ↔ ∀ change ∈ changes_of payload, InVocabulary change) ∧
      (((handler r.operation).isSome = true ↔ (from_protobuf r).isSome = true) ↔
        r.operation ≠ "") :=
  ⟨parse_consumable_iff h, readers_agree_iff r⟩

/-- The hypothesis is met: a payload with the letter of an insertion. -/
theorem captured_consumable_sample : Consumable (record_of_action "INSERT") := by
  refine (captured_consumable_iff (parse_payload_of "I") (sampleRecord "1")).1.mpr ?_ _
    (List.mem_singleton_self _)
  intro change hchange
  obtain rfl := List.mem_singleton.mp hchange
  exact ⟨"I", by decide, rfl⟩

end WalStream.Pipeline
