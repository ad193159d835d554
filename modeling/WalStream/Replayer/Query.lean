/-
The text of the generated statements, and what PostgreSQL reads in it.

The applier puts the table into the text as the record has it, and each column between double
quotes. PostgreSQL folds the one to lower case and takes it apart at its dots and blanks; and
a quote in the other ends it. `query_means_record_iff` says for which names the text still
means the record.
-/
import WalStream.Replayer.Applier
import WalStream.Lib.SqlNames

set_option autoImplicit false

namespace WalStream.Replayer

open Lib

/-! ## The texts

The f-strings of the applier, with its line breaks and the blanks in front of them. -/

/-- `sep.join(parts)` -/
def join (sep : String) : List String → String
  | [] => ""
  | [part] => part
  | part :: part' :: parts => part ++ sep ++ join sep (part' :: parts)

/-- `f"${idx}"` -/
def placeholder (idx : Nat) : String := "$" ++ toString idx

/-- `set_parts` and `where_parts`, numbered from `idx`. -/
def assignments (idx : Nat) (cells : List (String × String)) : List String :=
  (cells.zipIdx idx).map fun p => p.1.1 ++ " = " ++ placeholder p.2

/-- The query. -/
def Statement.query : Statement → String
  | .insert table cells =>
      "\n            INSERT INTO " ++ table ++ " (" ++ join ", " (cells.map Prod.fst) ++
        ")\n            VALUES (" ++ join ", " ((List.range' 1 cells.length).map placeholder) ++
        ")\n            ON CONFLICT DO NOTHING\n        "
  | .update table sets wheres =>
      "\n            UPDATE " ++ table ++ "\n            SET " ++ join ", " (assignments 1 sets) ++
        -- the counter runs on from the one list to the other
        "\n            WHERE " ++ join " AND " (assignments (1 + sets.length) wheres) ++
        "\n        "
  | .delete table wheres =>
      "\n            DELETE FROM " ++ table ++ "\n            WHERE " ++
        join " AND " (assignments 1 wheres) ++ "\n        "
  | .truncate table => "TRUNCATE TABLE " ++ table

/-- The arguments that go with it. -/
def Statement.args : Statement → List String
  | .insert _ cells => cells.map Prod.snd
  | .update _ sets wheres => sets.map Prod.snd ++ wheres.map Prod.snd
  | .delete _ wheres => wheres.map Prod.snd
  | .truncate _ => []

/-! ## Their meaning

The text as PostgreSQL's grammar reads it. What is read is compared with what the record asks
for by the names, and by the values that the parameters stand for. -/

/-- What a statement asks for: a relation, and columns with their values. -/
inductive Request
  | insert (schema table : String) (values : List (String × String))
  | update (schema table : String) (sets wheres : List (String × String))
  | delete (schema table : String) (wheres : List (String × String))
  | truncate (schema table : String)
deriving DecidableEq

/-- The columns with the arguments their parameters stand for. -/
def paired (args : List String) (columns : List (List Char × Nat)) :
    Option (List (String × String)) :=
  columns.mapM fun c =>
    if c.2 = 0 then none else args[c.2 - 1]?.map fun value => (String.ofList c.1, value)

/-- What PostgreSQL makes of a query and its arguments. -/
def request (query : String) (args : List String) : Option Request := do
  match ← Sql.command query.toList with
  | .insert (schema, table) columns params =>
      if columns.length = params.length then
        return .insert (.ofList schema) (.ofList table) (← paired args (columns.zip params))
      else none
  | .update (schema, table) sets wheres =>
      return .update (.ofList schema) (.ofList table) (← paired args sets) (← paired args wheres)
  | .delete (schema, table) wheres =>
      return .delete (.ofList schema) (.ofList table) (← paired args wheres)
  | .truncate (schema, table) => return .truncate (.ofList schema) (.ofList table)

example : (apply_delete ⟨"1", 0, "public.t", "DELETE", .ofPairs [("id", "7"), ("A b", "x")],
      .empty⟩).bind (fun s => request s.query s.args)
    = some (.delete "public" "t" [("id", "7"), ("A b", "x")]) := by decide +kernel

/-! ## The texts, slot by slot

Each text is written once more as a list of slots, a name between quotes with what leads to the
next one. `Lib.SqlNames` is about such lists, and this is where it is connected to the
f-strings. -/

/-- The columns of some cells. -/
def names (cells : List (String × String)) : List (List Char) := cells.map fun c => c.1.toList

/-- The cells as the applier has them, the columns between quotes. -/
def quoteAll (cells : List (String × String)) : List (String × String) :=
  cells.map fun c => (quoted c.1, c.2)

section

variable {part : String → Nat → String} {ws : List Char} {body : Nat → List Char}
variable {sep lastSep : List Char → Option (List Char)}

/-- A joined list of parts that start with a quoted column. -/
theorem join_eq_chain
    (hpart : ∀ c k, (part c k).toList = '"' :: (c.toList ++ '"' :: (ws ++ body k)))
    (glue : String) (tail : List Char) (k : Nat) {cells : List (String × String)}
    (hne : cells ≠ []) :
    (join glue ((cells.zipIdx k).map fun p => part p.1.1 p.2)).toList ++ tail
      = Sql.slotsText (Sql.chain ws (fun k => body k ++ glue.toList) sep
          (fun k => body k ++ tail) lastSep k (names cells)) := by
  induction cells generalizing k with
  | nil => exact absurd rfl hne
  | cons cell cells ih =>
      cases cells with
      | nil => simp [join, names, Sql.chain, Sql.slotsText, hpart]
      | cons cell' cells =>
          have hrest := ih (k + 1) (List.cons_ne_nil _ _)
          simp only [List.zipIdx_cons, List.map_cons, join, names, Sql.chain, Sql.slotsText,
            String.toList_append, hpart, List.cons_append, List.append_assoc] at hrest ⊢
          rw [hrest]

end

theorem quoted_toList (c : String) : (quoted c).toList = '"' :: (c.toList ++ ['"']) := by
  simp [quoted]

theorem placeholder_toList (k : Nat) : (placeholder k).toList = Sql.paramText k := by
  simp [placeholder, Sql.paramText]

/-- `"c" = $k` -/
def assignmentPart (c : String) (k : Nat) : String := quoted c ++ " = " ++ placeholder k

theorem assignmentPart_toList (c : String) (k : Nat) :
    (assignmentPart c k).toList = '"' :: (c.toList ++ '"' :: ([' '] ++ Sql.assignText k)) := by
  simp [assignmentPart, quoted_toList, placeholder_toList, Sql.assignText]

theorem assignments_quoteAll (k : Nat) (cells : List (String × String)) :
    assignments k (quoteAll cells) = (cells.zipIdx k).map fun p => assignmentPart p.1.1 p.2 := by
  simp only [assignments, quoteAll, List.zipIdx_map, List.map_map]
  rfl

/-- The slots of the columns to set, up to `WHERE`. -/
def setSlots (sets : List (String × String)) : List Sql.Slot :=
  Sql.chain [' '] (fun k => Sql.assignText k ++ ", ".toList)
    (Sql.afterColumn (Sql.punct ','))
    (fun k => Sql.assignText k ++ "\n            WHERE ".toList)
    (Sql.afterColumn (Sql.keyword "where")) 1 (names sets)

/-- The slots of the columns to compare, to the end of the text. -/
def whereSlots (k : Nat) (wheres : List (String × String)) : List Sql.Slot :=
  Sql.chain [' '] (fun k => Sql.assignText k ++ " AND ".toList)
    (Sql.afterColumn (Sql.keyword "and")) (fun k => Sql.assignText k ++ "\n        ".toList)
    (Sql.afterColumn (Sql.keyword "and")) k (names wheres)

/-- The blanks in front of a line. -/
def margin : List Char := "\n            ".toList

theorem join_sets {sets : List (String × String)} (hne : sets ≠ []) :
    (join ", " (assignments 1 (quoteAll sets))).toList ++ "\n            WHERE ".toList
      = Sql.slotsText (setSlots sets) := by
  rw [assignments_quoteAll]
  exact join_eq_chain assignmentPart_toList ", " _ 1 hne

theorem join_wheres (k : Nat) {wheres : List (String × String)} (hne : wheres ≠ []) :
    (join " AND " (assignments k (quoteAll wheres))).toList ++ "\n        ".toList
      = Sql.slotsText (whereSlots k wheres) := by
  rw [assignments_quoteAll]
  exact join_eq_chain assignmentPart_toList " AND " _ k hne


theorem dotted_toList (schema table : String) :
    (schema ++ "." ++ table).toList = schema.toList ++ '.' :: table.toList := by
  have hdot : ".".toList = ['.'] := by decide
  rw [String.toList_append, String.toList_append, hdot, List.append_assoc]
  rfl

theorem update_text (schema table : String) {sets wheres : List (String × String)}
    (hsets : sets ≠ []) (hwheres : wheres ≠ []) :
    (Statement.update (schema ++ "." ++ table) (quoteAll sets) (quoteAll wheres)).query.toList
      = margin ++ ("UPDATE".toList ++ ' ' :: (schema.toList ++ '.' :: (table.toList ++
          (margin ++ ("SET ".toList ++
            Sql.slotsText (setSlots sets ++ whereSlots (1 + sets.length) wheres)))))) := by
  have hupdate : "\n            UPDATE ".toList = margin ++ ("UPDATE".toList ++ [' ']) := by decide
  have hset : "\n            SET ".toList = margin ++ "SET ".toList := by decide
  have hlength : (quoteAll sets).length = sets.length := List.length_map _
  have hparts (verb table set sets «where» wheres last : String) :
      (verb ++ table ++ set ++ sets ++ «where» ++ wheres ++ last).toList
        = verb.toList ++ (table.toList ++ (set.toList ++
            ((sets.toList ++ «where».toList) ++ (wheres.toList ++ last.toList)))) := by
    simp only [String.toList_append, List.append_assoc]
  change (_ ++ _ ++ _ ++ join ", " _ ++ _ ++ join " AND " (assignments (1 + (quoteAll sets).length) _)
    ++ _).toList = _
  rw [hlength, hparts, join_sets hsets, join_wheres _ hwheres, dotted_toList, hupdate, hset,
    Sql.slotsText_append]
  simp only [List.append_assoc, List.cons_append, List.nil_append]

theorem delete_text (schema table : String) {wheres : List (String × String)}
    (hwheres : wheres ≠ []) :
    (Statement.delete (schema ++ "." ++ table) (quoteAll wheres)).query.toList
      = margin ++ ("DELETE".toList ++ ' ' :: ("FROM".toList ++ ' ' :: (schema.toList ++ '.' ::
          (table.toList ++ (margin ++ ("WHERE ".toList ++
            Sql.slotsText (whereSlots 1 wheres))))))) := by
  have hdelete : "\n            DELETE FROM ".toList
      = margin ++ ("DELETE".toList ++ ' ' :: ("FROM".toList ++ [' '])) := by decide
  have hwhere : "\n            WHERE ".toList = margin ++ "WHERE ".toList := by decide
  have hparts (verb table «where» wheres last : String) :
      (verb ++ table ++ «where» ++ wheres ++ last).toList
        = verb.toList ++ (table.toList ++ («where».toList ++ (wheres.toList ++ last.toList))) := by
    simp only [String.toList_append, List.append_assoc]
  change (_ ++ _ ++ _ ++ join " AND " _ ++ _).toList = _
  rw [hparts, join_wheres _ hwheres, dotted_toList, hdelete, hwhere]
  simp only [List.append_assoc, List.cons_append, List.nil_append]

/-- What follows the last column of an insertion of so many. -/
def valuesText (n : Nat) : List Char :=
  (")\n            VALUES (" ++ join ", " ((List.range' 1 n).map placeholder) ++
    ")\n            ON CONFLICT DO NOTHING\n        ").toList

/-- The slots of the columns to insert. -/
def insertSlots (cells : List (String × String)) : List Sql.Slot :=
  Sql.chain [] (fun _ => ", ".toList) (Sql.punct ',') (fun _ => valuesText cells.length)
    (Sql.punct ',') 1 (names cells)

theorem join_columns {cells : List (String × String)} (hne : cells ≠ []) :
    (join ", " ((quoteAll cells).map Prod.fst)).toList ++ valuesText cells.length
      = Sql.slotsText (insertSlots cells) := by
  have hfst : (cells.zipIdx 1).map (fun p => quoted p.1.1)
      = ((cells.zipIdx 1).map Prod.fst).map fun c => quoted c.1 := by
    rw [List.map_map]
    rfl
  have hcolumns : (quoteAll cells).map Prod.fst
      = (cells.zipIdx 1).map fun p => (fun c (_ : Nat) => quoted c) p.1.1 p.2 := by
    rw [hfst, List.zipIdx_map_fst, quoteAll, List.map_map]
    rfl
  have hpart : ∀ (c : String) (k : Nat), ((fun c (_ : Nat) => quoted c) c k).toList
      = '"' :: (c.toList ++ '"' :: ([] ++ (fun _ => []) k)) := fun c _ => quoted_toList c
  rw [hcolumns]
  exact join_eq_chain hpart ", " _ 1 hne

theorem insert_text (schema table : String) {cells : List (String × String)} (hne : cells ≠ []) :
    (Statement.insert (schema ++ "." ++ table) (quoteAll cells)).query.toList
      = margin ++ ("INSERT".toList ++ ' ' :: ("INTO".toList ++ ' ' :: (schema.toList ++ '.' ::
          (table.toList ++ ([' '] ++ ('(' :: Sql.slotsText (insertSlots cells))))))) := by
  have hinsert : "\n            INSERT INTO ".toList
      = margin ++ ("INSERT".toList ++ ' ' :: ("INTO".toList ++ [' '])) := by decide
  have hparen : " (".toList = [' '] ++ ['('] := by decide
  have hlength : (quoteAll cells).length = cells.length := List.length_map _
  have hparts (verb table paren columns values params last : String) :
      (verb ++ table ++ paren ++ columns ++ values ++ params ++ last).toList
        = verb.toList ++ (table.toList ++ (paren.toList ++
            (columns.toList ++ (values ++ params ++ last).toList))) := by
    simp only [String.toList_append, List.append_assoc]
  change (_ ++ _ ++ _ ++ join ", " _ ++ _ ++ join ", " ((List.range' 1 (quoteAll cells).length).map _)
    ++ _).toList = _
  rw [hlength, hparts]
  change _ ++ (_ ++ (_ ++ (_ ++ valuesText cells.length))) = _
  rw [join_columns hne, dotted_toList, hinsert, hparen]
  simp only [List.append_assoc, List.cons_append, List.nil_append]

theorem truncate_text (schema table : String) :
    (Statement.truncate (schema ++ "." ++ table)).query.toList
      = [] ++ ("TRUNCATE".toList ++ ' ' :: ("TABLE".toList ++ ' ' :: (schema.toList ++ '.' ::
          (table.toList ++ ([] ++ []))))) := by
  have htruncate : "TRUNCATE TABLE ".toList
      = "TRUNCATE".toList ++ ' ' :: ("TABLE".toList ++ [' ']) := by decide
  change ("TRUNCATE TABLE " ++ (schema ++ "." ++ table)).toList = _
  rw [String.toList_append, dotted_toList, htruncate]
  simp only [List.append_assoc, List.cons_append, List.nil_append, List.append_nil]

end WalStream.Replayer
