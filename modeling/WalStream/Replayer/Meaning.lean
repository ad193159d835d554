/-
What the generated statements ask for.

Names are read back from the text in which the applier put them. Where that goes well the
statement is the record's; where it does not, no reading of the text is.

The two directions are proved differently. That names without quotes and dots are read as they
are is a matter of running the reader over the text, operation by operation. The converse
starts from a text that is read as the wanted request, without knowing where in the text its
names were found. `Lib.SqlNames` settles it without a search: a name with a quote in it puts
the reader too far ahead, it can only get further ahead from there, and at the end of the
text something it still needs is missing. What is particular to the four statements is only
what is missing at their ends: an equals sign and a parameter, or a closing parenthesis.
-/
import WalStream.Replayer.Query

set_option autoImplicit false

namespace WalStream.Replayer

open Lib

/-- A name PostgreSQL can give to a relation or a column. -/
structure Identifier (name : String) : Prop where
  ne_empty : name ≠ ""
  no_nul : '\x00' ∉ name.toList
  bytes : Sql.byteLength name.toList ≤ 63

/-- The names of a relation that are read as they are without quotes. -/
structure Unquoted (schema table : String) : Prop where
  schema_plain : Sql.Plain schema.toList
  table_plain : Sql.Plain table.toList
  not_keyword : schema ∉ Sql.notColId

/-- No column has a quote in its name. -/
def Unbroken (cells : List (String × String)) : Prop := ∀ c ∈ cells, '"' ∉ c.1.toList

instance (cells : List (String × String)) : Decidable (Unbroken cells) :=
  inferInstanceAs (Decidable (∀ c ∈ cells, _))

/-! ## Columns and arguments

Parameters are numbered through the text, so the arguments of a list of columns are a piece of
all arguments. -/

/-- The columns keep their names: pairing looks only at the numbers. What `request` says about
the columns of a statement is therefore known from the names that were read, whatever the
arguments are. -/
theorem paired_names {args : List String} {columns : List (List Char × Nat)}
    {cells : List (String × String)} (h : paired args columns = some cells) :
    columns.map Prod.fst = names cells := by
  induction columns generalizing cells with
  | nil =>
      cases h
      rfl
  | cons c columns ih =>
      simp only [paired, List.mapM_cons, Option.bind_eq_bind, Option.bind_eq_some_iff,
        Option.pure_def, Option.some.injEq, Option.ite_none_left_eq_some,
        Option.map_eq_some_iff] at h
      obtain ⟨cell, ⟨-, value, -, rfl⟩, cells', hcells, rfl⟩ := h
      rw [List.map_cons, ih hcells]
      simp [names]

/-- One column more, with the argument its parameter stands for. Parameters are numbered from
one, so the number 0 stands for nothing and is excluded. -/
theorem paired_cons {args : List String} {c : List Char × Nat} {value : String}
    (columns : List (List Char × Nat)) (hne : c.2 ≠ 0) (hvalue : args[c.2 - 1]? = some value) :
    paired args (c :: columns)
      = (paired args columns).map fun cells => (String.ofList c.1, value) :: cells := by
  simp only [paired, List.mapM_cons, if_neg hne, hvalue, Option.map_some, Option.bind_eq_bind,
    Option.bind_some, Option.pure_def]
  exact Option.map_eq_bind.symm

/-- Columns numbered one after the other have the arguments in their order. -/
theorem paired_zipIdx (before after : List String) (cells : List (String × String)) :
    paired (before ++ (cells.map Prod.snd ++ after)) ((names cells).zipIdx (before.length + 1))
      = some cells := by
  induction cells generalizing before with
  | nil => rfl
  | cons cell cells ih =>
      have hrest := ih (before ++ [cell.2])
      rw [List.append_assoc, List.length_append] at hrest
      have hvalue : (before ++ (cell.2 :: (cells.map Prod.snd ++ after)))[before.length + 1 - 1]?
          = some cell.2 := by simp
      rw [names, List.map_cons, List.map_cons, List.zipIdx_cons, List.cons_append,
        paired_cons _ (Nat.succ_ne_zero _) hvalue]
      change (paired (before ++ ([cell.2] ++ (cells.map Prod.snd ++ after)))
        ((names cells).zipIdx (before.length + [cell.2].length + 1))).map _ = _
      rw [hrest, Option.map_some, String.ofList_toList]

/-! ## The slots

The parts of the four statements, as slots in the sense of `Lib.SqlNames`: of each it is shown
what leads from it to the next name, or that it is the last. -/

section

variable {cells : List (String × String)}

/-- The lists of slots below are only made of statements that have a column, and this is the
form in which `Sql.chain_slots` asks for it. -/
theorem names_ne_nil {cells : List (String × String)} (h : cells ≠ []) : names cells ≠ [] :=
  fun hnil => h (List.map_eq_nil_iff.mp hnil)

/-- An assignment of the `SET` list that is not the last. The comma is what its reader asks for,
and `=` is not among the characters of `$k, `, which is what tells this text from a name. -/
theorem comma_leads (k : Nat) (name : List Char) :
    Sql.Slot.Leads '=' ⟨name, [' '], Sql.assignText k ++ ", ".toList,
      Sql.afterColumn (Sql.punct ',')⟩ := by
  have hcomma : ", ".toList = [] ++ [',', ' '] := by decide
  rw [hcomma]
  exact Sql.between_comma.leads (by decide) (by decide) k name

/-- A condition of the `WHERE` list that is not the last. The reader asks for the keyword and
not for a character, but the `=` before it is the first thing it asks for. -/
theorem and_leads (k : Nat) (name : List Char) :
    Sql.Slot.Leads '=' ⟨name, [' '], Sql.assignText k ++ " AND ".toList,
      Sql.afterColumn (Sql.keyword "and")⟩ := by
  have hand : " AND ".toList = [' '] ++ "AND ".toList := by decide
  rw [hand]
  exact Sql.between_and.leads (by decide) (by decide) k name

/-- The applier writes its statements over several lines, so what surrounds their parts is a
line break and the source's own indentation: blanks, all of them. -/
theorem margin_space : ∀ c ∈ margin, Sql.isSpace c = true := Sql.all_space (by decide)

/-- A word that stands before the margin is over there. -/
theorem margin_endsWord (rest : List Char) : Sql.EndsWord (margin ++ rest) := by
  intro d hd
  obtain rfl : '\n' = d := Option.some.inj hd
  decide

/-- So is a parameter: the margin has no digit in it. -/
theorem margin_endsParam (rest : List Char) : Sql.EndsParam (margin ++ rest) := by
  intro d hd
  obtain rfl : '\n' = d := Option.some.inj hd
  decide

/-- The last assignment of the `SET` list leads on to the first condition, across the keyword
`WHERE`. This is the place where the two lists become one chain of slots. -/
theorem where_leads (k : Nat) (name : List Char) :
    Sql.Slot.Leads '=' ⟨name, [' '], Sql.assignText k ++ "\n            WHERE ".toList,
      Sql.afterColumn (Sql.keyword "where")⟩ := by
  have hwhere : "\n            WHERE ".toList = margin ++ "WHERE ".toList := by decide
  rw [hwhere]
  exact (Sql.between_where margin margin_space).leads (by decide) (by decide) k name

/-- The last condition of the statement, behind which only the margin stands. Nothing has to be
told apart there, so it only has to fit. -/
theorem last_fits (k : Nat) (name : List Char) (sep : List Char → Option (List Char)) :
    Sql.Slot.Fits ⟨name, [' '], Sql.assignText k ++ "\n        ".toList, sep⟩ :=
  ⟨by simp [Sql.isSpace], by simp [Sql.Solid, Sql.assignText, Sql.isSpace],
    by simp [Sql.assignText]⟩

/-- The `WHERE` list as a chain of slots, whatever number its parameters begin with: in an
update the counter runs on from the `SET` list. -/
theorem whereSlots_slots (k : Nat) {wheres : List (String × String)} (h : wheres ≠ []) :
    Sql.Slots '=' (whereSlots k wheres) :=
  Sql.chain_slots and_leads (fun k name => last_fits k name _) k (names_ne_nil h)

/-- In the `SET` list every slot leads on, the last one included, because a `WHERE` follows. -/
theorem setSlots_leads (sets : List (String × String)) :
    ∀ s ∈ setSlots sets, Sql.Slot.Leads '=' s :=
  Sql.chain_leads comma_leads where_leads 1 (names sets)

/-- The text after the last condition, in which a reader that is late would have to find what is
still missing. -/
theorem lastCore_whereSlots (k : Nat) {wheres : List (String × String)} (h : wheres ≠ []) :
    Sql.lastCore (whereSlots k wheres)
      = Sql.assignText (k + (names wheres).length - 1) ++ "\n        ".toList :=
  Sql.lastCore_chain k (names_ne_nil h)

/-- The slot of a column to insert that is not the last. -/
theorem column_leads (_ : Nat) (name : List Char) :
    Sql.Slot.Leads ',' ⟨name, [], ", ".toList, Sql.punct ','⟩ := by
  have hcomma : ", ".toList = [',', ' '] := by decide
  have hsolid : Sql.Solid [',', ' '] := by decide
  rw [hcomma]
  refine ⟨⟨by simp, hsolid, rfl⟩, ⟨[' '], rfl, by decide⟩, fun rest => ?_, fun cs cs' h => ?_⟩
  · change Sql.punct ',' ([',', ' '] ++ '"' :: rest) = some ('"' :: rest)
    exact Sql.punct_in_step
  · obtain ⟨a, rfl, ha⟩ := Sql.punct_spec h
    exact ⟨a, rfl, Sql.blanks_suffix ha⟩

/-- The parameters of an insertion. -/
def paramsText (n : Nat) : List Char := (join ", " ((List.range' 1 n).map placeholder)).toList

/-- What stands after the parameters. -/
def conflictText : List Char := ")\n            ON CONFLICT DO NOTHING\n        ".toList

/-- The text after the last column of an insertion, opened up into the tokens the grammar asks
for one after the other. -/
theorem valuesText_eq (n : Nat) :
    valuesText n = ')' :: (margin ++ ("VALUES".toList ++ ' ' :: ('(' :: (paramsText n ++
      conflictText)))) := by
  have hvalues : ")\n            VALUES (".toList
      = ')' :: (margin ++ ("VALUES".toList ++ ' ' :: ['('])) := by decide
  rw [valuesText, String.toList_append, String.toList_append, hvalues]
  simp only [List.cons_append, List.append_assoc, List.nil_append]
  rfl

/-- A character of joined parts is one of the separator or of a part. The texts of the
statements are made by `join`, so what they contain is settled part by part. -/
theorem mem_join {x : Char} {sep : String} {parts : List String}
    (h : x ∈ (join sep parts).toList) : x ∈ sep.toList ∨ ∃ part ∈ parts, x ∈ part.toList := by
  induction parts using join.induct with
  | case1 => simp [join] at h
  | case2 part => exact Or.inr ⟨part, by simp, h⟩
  | case3 part part' parts ih =>
      rw [join, String.toList_append, String.toList_append, List.mem_append, List.mem_append] at h
      rcases h with (hpart | hsep) | hrest
      · exact Or.inr ⟨part, by simp, hpart⟩
      · exact Or.inl hsep
      · rcases ih hrest with hsep | ⟨p, hp, hx⟩
        · exact Or.inl hsep
        · exact Or.inr ⟨p, List.mem_cons_of_mem _ hp, hx⟩

/-- No parenthesis is closed among the parameters: they are made of dollar signs, digits, commas
and blanks. -/
theorem not_mem_paramsText (n : Nat) : ')' ∉ paramsText n := by
  intro h
  rcases mem_join h with hsep | ⟨part, hpart, hx⟩
  · exact absurd hsep (by decide)
  · obtain ⟨k, -, rfl⟩ := List.mem_map.mp hpart
    rw [placeholder_toList, Sql.paramText, List.mem_cons] at hx
    rcases hx with hx | hx
    · exact absurd hx (by decide)
    · have hdigit := Nat.isDigit_of_mem_toDigits (by decide) (by decide) hx
      exact absurd hdigit (by decide)

/-- The columns of an insertion as a chain of slots, with commas between them and the
parenthesis at the end. -/
theorem insertSlots_slots (h : cells ≠ []) : Sql.Slots ',' (insertSlots cells) := by
  refine Sql.chain_slots column_leads (fun k name => ?_) 1 (names_ne_nil h)
  rw [valuesText_eq]
  exact ⟨by simp, by simp [Sql.Solid, Sql.isSpace], by simp⟩

/-- The names are those of the cells. -/
theorem unbroken_of_slots {slots : List Sql.Slot} {cells : List (String × String)}
    (hnames : slots.map Sql.Slot.name = names cells) (h : ∀ s ∈ slots, '"' ∉ s.name) :
    Unbroken cells := by
  intro c hc
  have hmem : c.1.toList ∈ slots.map Sql.Slot.name := by
    rw [hnames]
    exact List.mem_map_of_mem hc
  obtain ⟨s, hs, hname⟩ := List.mem_map.mp hmem
  rw [← hname]
  exact h s hs

/-- What `Sql.relation_names` says of the two names of a relation, as the condition of this
file: they are compared as strings there only for the list of keywords. -/
theorem unquoted_of_plain {schema table : String}
    (h : Sql.Plain schema.toList ∧ Sql.Plain table.toList ∧
      String.ofList schema.toList ∉ Sql.notColId) : Unquoted schema table := by
  obtain ⟨hschema, htable, hkeyword⟩ := h
  rw [String.ofList_toList] at hkeyword
  exact ⟨hschema, htable, hkeyword⟩

end

/-! ## What is read is plain

The converse direction. The text is only known to be read as the request; that its names were
put there as they are read comes out at the end. -/

section

variable {schema table : String} {sets wheres cells : List (String × String)}

/-- `Made args c r`: over the arguments `args`, the command `c` makes the request `r`. -/
inductive Made (args : List String) : Sql.Command → Request → Prop
  | insert (rel : List Char × List Char) (columns : List (List Char)) (params : List Nat)
      (cells : List (String × String)) (hlength : columns.length = params.length)
      (hcells : paired args (columns.zip params) = some cells) :
      Made args (.insert rel columns params) (.insert (.ofList rel.1) (.ofList rel.2) cells)
  | update (rel : List Char × List Char) (columns columns' : List (List Char × Nat))
      (sets wheres : List (String × String)) (hsets : paired args columns = some sets)
      (hwheres : paired args columns' = some wheres) :
      Made args (.update rel columns columns')
        (.update (.ofList rel.1) (.ofList rel.2) sets wheres)
  | delete (rel : List Char × List Char) (columns : List (List Char × Nat))
      (wheres : List (String × String)) (hwheres : paired args columns = some wheres) :
      Made args (.delete rel columns) (.delete (.ofList rel.1) (.ofList rel.2) wheres)
  | truncate (rel : List Char × List Char) :
      Made args (.truncate rel) (.truncate (.ofList rel.1) (.ofList rel.2))

/-- **The inversion of `request`.** -/
theorem made_of_request {query : String} {args : List String} {r : Request}
    (h : request query args = some r) : ∃ c, Sql.command query.toList = some c ∧ Made args c r := by
  simp only [request, Option.bind_eq_bind, Option.bind_eq_some_iff] at h
  obtain ⟨c, hc, h⟩ := h
  refine ⟨c, hc, ?_⟩
  cases c with
  | insert rel columns params =>
      simp only [Option.ite_none_right_eq_some, Option.bind_eq_some_iff, Option.pure_def,
        Option.some.injEq] at h
      obtain ⟨hlength, cells, hcells, rfl⟩ := h
      exact .insert rel columns params cells hlength hcells
  | update rel columns columns' =>
      simp only [Option.bind_eq_some_iff, Option.pure_def, Option.some.injEq] at h
      obtain ⟨sets, hsets, wheres, hwheres, rfl⟩ := h
      exact .update rel columns columns' sets wheres hsets hwheres
  | delete rel columns =>
      simp only [Option.bind_eq_some_iff, Option.pure_def, Option.some.injEq] at h
      obtain ⟨wheres, hwheres, rfl⟩ := h
      exact .delete rel columns wheres hwheres
  | truncate rel =>
      simp only [Option.pure_def, Option.some.injEq] at h
      subst h
      exact .truncate rel

/-- What is known when a text asks for this insertion: it is read as one, of the relation, and
the names of its columns are those of the cells. The parameters may be any that pair up with the
arguments. -/
theorem request_insert {query : String} {args : List String}
    (h : request query args = some (.insert schema table cells)) :
    ∃ columns params, columns = names cells ∧
      Sql.command query.toList = some (.insert (schema.toList, table.toList) columns params) := by
  obtain ⟨c, hc, hmade⟩ := made_of_request h
  cases hmade with
  | insert rel columns params _ hlength hcells =>
      refine ⟨columns, params, ?_, by simpa only [String.toList_ofList] using hc⟩
      rw [← paired_names hcells, List.map_fst_zip (Nat.le_of_eq hlength)]

/-- What is known when a text asks for this update. Its two lists of columns are kept apart,
because a text can be read with one of them longer than it was written. -/
theorem request_update {query : String} {args : List String}
    (h : request query args = some (.update schema table sets wheres)) :
    ∃ columns columns', columns.map Prod.fst = names sets ∧ columns'.map Prod.fst = names wheres ∧
      Sql.command query.toList
        = some (.update (schema.toList, table.toList) columns columns') := by
  obtain ⟨c, hc, hmade⟩ := made_of_request h
  cases hmade with
  | update rel columns columns' _ _ hsets hwheres =>
      exact ⟨columns, columns', paired_names hsets, paired_names hwheres,
        by simpa only [String.toList_ofList] using hc⟩

/-- What is known when a text asks for this deletion. -/
theorem request_delete {query : String} {args : List String}
    (h : request query args = some (.delete schema table wheres)) :
    ∃ columns, columns.map Prod.fst = names wheres ∧
      Sql.command query.toList = some (.delete (schema.toList, table.toList) columns) := by
  obtain ⟨c, hc, hmade⟩ := made_of_request h
  cases hmade with
  | delete rel columns _ hwheres =>
      exact ⟨columns, paired_names hwheres, by simpa only [String.toList_ofList] using hc⟩

/-- What is known when a text asks for the relation to be truncated; it has no columns, so
nothing is lost by saying it of the command. -/
theorem request_truncate {query : String} {args : List String}
    (h : request query args = some (.truncate schema table)) :
    Sql.command query.toList = some (.truncate (schema.toList, table.toList)) := by
  obtain ⟨c, hc, hmade⟩ := made_of_request h
  cases hmade with
  | truncate rel => simpa only [String.toList_ofList] using hc

/-- From the relation of an update to its first column: the keyword `SET`, whose first letter is
nowhere else in it. -/
theorem opening_set : Sql.Opening 'S' ("ET".toList ++ [' ']) (fun c => c.toLower = 's')
    (Sql.keyword "set") := by
  have hbare : Sql.Bare ('S' :: "ET".toList) := by decide
  exact Sql.opening_keyword hbare (by decide) (by decide) (by decide) (by decide)

/-- From the relation of a deletion to its first condition. -/
theorem opening_where : Sql.Opening 'W' ("HERE".toList ++ [' ']) (fun c => c.toLower = 'w')
    (Sql.keyword "where") := by
  have hbare : Sql.Bare ('W' :: "HERE".toList) := by decide
  exact Sql.opening_keyword hbare (by decide) (by decide) (by decide) (by decide)

/-- Nothing is late after the last condition: there an equals sign and a parameter are still to
be read, and the text after the last name has only the one equals sign that belongs to it. -/
theorem not_late_wheres {k : Nat} {r : List Char} (hne : wheres ≠ [])
    (h : Sql.columnParam r = some []) : ¬ Sql.Late (Sql.lastCore (whereSlots k wheres)) r := by
  rw [lastCore_whereSlots k hne]
  exact Sql.not_late_assignText (by decide) h

/-- A `SET` list that has been read, as names that were read one after the other from the place
it begins at. The names are those of the statement by assumption; that their places are is what
is to be shown. -/
theorem reads_sets {fuel : Nat} {cs r : List Char} {columns : List (List Char × Nat)}
    (h : Sql.sepBy Sql.assignment (Sql.punct ',') fuel cs = some (columns, r))
    (hcolumns : columns.map Prod.fst = names sets) :
    ∃ r₀, Sql.Reads (setSlots sets) cs r₀ ∧ Sql.columnParam r₀ = some r := by
  rw [setSlots, ← hcolumns]
  exact Sql.sepBy_reads (fun _ _ _ => Sql.assignment_spec) h

/-- The same of a `WHERE` list. -/
theorem reads_wheres {fuel : Nat} {cs r : List Char} {columns : List (List Char × Nat)} (k : Nat)
    (h : Sql.sepBy Sql.assignment (Sql.keyword "and") fuel cs = some (columns, r))
    (hcolumns : columns.map Prod.fst = names wheres) :
    ∃ r₀, Sql.Reads (whereSlots k wheres) cs r₀ ∧ Sql.columnParam r₀ = some r := by
  rw [whereSlots, ← hcolumns]
  exact Sql.sepBy_reads (fun _ _ _ => Sql.assignment_spec) h

/-- **A text that asks for the update was made of names that can be read.** The relation, the
`SET` list and the `WHERE` list are one chain of names put into the text; the last of them was
read with its parameter, so the reader is not late there, and therefore was late nowhere. -/
theorem names_of_update (hsets : sets ≠ []) (hwheres : wheres ≠ []) {args : List String}
    (h : request (Statement.update (schema ++ "." ++ table) (quoteAll sets)
      (quoteAll wheres)).query args = some (.update schema table sets wheres)) :
    Unquoted schema table ∧ Unbroken sets ∧ Unbroken wheres := by
  obtain ⟨columns, columns', hcolumns, hcolumns', hcommand⟩ := request_update h
  rw [update_text schema table hsets hwheres, Sql.command_update margin_space] at hcommand
  simp only [Option.bind_eq_some_iff, Sql.complete_eq_some] at hcommand
  obtain ⟨cs, hcs, _, hupdate, rfl⟩ := hcommand
  simp only [Sql.updateCommand, Option.bind_eq_bind, Option.bind_eq_some_iff, Option.pure_def,
    Option.some.injEq, Prod.mk.injEq, Sql.Command.update.injEq, Prod.exists] at hupdate
  obtain ⟨_, _, r₁, hrel, r₂, hset, _, r₃, hreadSets, r₄, hwhere, _, _, hreadWheres,
    ⟨⟨rfl, rfl⟩, rfl, rfl⟩, rfl⟩ := hupdate
  obtain ⟨r, hreads, hafter⟩ := reads_sets hreadSets hcolumns
  obtain ⟨r', hreads', hafter'⟩ := reads_wheres (1 + sets.length) hreadWheres hcolumns'
  obtain ⟨last, hlast⟩ : ∃ last, (setSlots sets).getLast? = some
      ⟨last, [' '], _, Sql.afterColumn (Sql.keyword "where")⟩ :=
    Sql.getLast?_chain 1 (names_ne_nil hsets)
  have hlead : Sql.afterColumn (Sql.keyword "where") r = some r₄ := by
    rw [Sql.afterColumn, hafter, Option.bind_some, hwhere]
  have hall := hreads.append hlast hlead hreads'
  have hslots := Sql.Slots.append (setSlots_leads sets) (whereSlots_slots (1 + sets.length) hwheres)
  have hend : ¬ Sql.Late (Sql.lastCore (setSlots sets ++ whereSlots (1 + sets.length) wheres)) r' := by
    rw [Sql.lastCore_append _ (whereSlots_slots _ hwheres).ne_nil]
    exact not_late_wheres hwheres hafter'
  obtain ⟨hplain, hnames⟩ := Sql.relation_names opening_set hslots margin_space
    (Sql.blanks_suffix hcs) hrel hset hall hend
  rw [List.forall_mem_append] at hnames
  exact ⟨unquoted_of_plain hplain, unbroken_of_slots (Sql.chain_names _ _) hnames.1,
    unbroken_of_slots (Sql.chain_names _ _) hnames.2⟩

/-- The same of a deletion, which has a single list. -/
theorem names_of_delete (hwheres : wheres ≠ []) {args : List String}
    (h : request (Statement.delete (schema ++ "." ++ table) (quoteAll wheres)).query args
      = some (.delete schema table wheres)) :
    Unquoted schema table ∧ Unbroken wheres := by
  obtain ⟨columns, hcolumns, hcommand⟩ := request_delete h
  rw [delete_text schema table hwheres, Sql.command_delete margin_space] at hcommand
  simp only [Option.bind_eq_some_iff, Sql.complete_eq_some] at hcommand
  obtain ⟨cs, hcs, _, hdelete, rfl⟩ := hcommand
  simp only [Sql.deleteCommand, Option.bind_eq_bind, Option.bind_eq_some_iff, Option.pure_def,
    Option.some.injEq, Prod.mk.injEq, Sql.Command.delete.injEq, Prod.exists] at hdelete
  obtain ⟨r₁, hfrom, _, _, r₂, hrel, r₃, hwhere, _, _, hreadWheres, ⟨⟨rfl, rfl⟩, rfl⟩, rfl⟩ := hdelete
  have hbare : Sql.Bare "FROM".toList := by decide
  have hsuffix := Sql.blanks_suffix (Sql.blanks_of_keyword hbare (by decide) hcs hfrom)
  obtain ⟨r, hreads, hafter⟩ := reads_wheres 1 hreadWheres hcolumns
  obtain ⟨hplain, hnames⟩ := Sql.relation_names opening_where (whereSlots_slots 1 hwheres)
    margin_space hsuffix hrel hwhere hreads (not_late_wheres hwheres hafter)
  exact ⟨unquoted_of_plain hplain, unbroken_of_slots (Sql.chain_names _ _) hnames⟩

/-- The same of a statement without columns. Its relation is the last thing in the text, and
behind it there is no room to be late in. -/
theorem names_of_truncate {args : List String}
    (h : request (Statement.truncate (schema ++ "." ++ table)).query args
      = some (.truncate schema table)) : Unquoted schema table := by
  have hcommand := request_truncate h
  have hspace : ∀ c ∈ ([] : List Char), Sql.isSpace c = true := Sql.all_space rfl
  rw [truncate_text, Sql.command_truncate hspace] at hcommand
  simp only [Option.bind_eq_some_iff, Sql.complete_eq_some] at hcommand
  obtain ⟨cs, hcs, _, htruncate, rfl⟩ := hcommand
  simp only [Sql.truncateCommand, Option.bind_eq_bind, Option.bind_eq_some_iff, Option.pure_def,
    Option.some.injEq, Prod.mk.injEq, Sql.Command.truncate.injEq, Prod.exists] at htruncate
  obtain ⟨r₁, htable, _, _, r₂, hrel, ⟨rfl, rfl⟩, rfl⟩ := htruncate
  have hbare : Sql.Bare "TABLE".toList := by decide
  have hsuffix := Sql.blanks_suffix (Sql.blanks_of_keyword hbare (by decide) hcs htable)
  have hgap : Sql.Gap [] [] := ⟨hspace, by decide⟩
  rcases Sql.relation_in_step_or_late hgap hsuffix hrel with ⟨-, hplain⟩ | hlate
  · exact unquoted_of_plain hplain
  · exact absurd hlate.2 (Nat.not_lt_zero _)

/-- The columns of an insertion as names read one after the other. They have no parameter of
their own, so nothing stands between a name and its comma. -/
theorem reads_columns {fuel : Nat} {cs r : List Char}
    (h : Sql.sepBy (Sql.ident false) (Sql.punct ',') fuel cs = some (names cells, r)) :
    Sql.Reads (insertSlots cells) cs r := by
  obtain ⟨r₀, hreads, hr⟩ : ∃ r₀, Sql.Reads (Sql.chain [] (fun _ => ", ".toList)
      (fun cs => (some cs).bind (Sql.punct ',')) (fun _ => valuesText cells.length)
      (Sql.punct ',') 1 ((names cells).map id)) cs r₀ ∧ some r₀ = some r :=
    Sql.sepBy_reads (fun _ _ r hident => ⟨r, hident, rfl⟩) h
  rw [List.map_id, Option.some.inj hr] at hreads
  exact hreads

/-- Nothing is late after the last column: two parentheses are still to be closed, and only one
is in the text that follows the first. They are counted, since a reader that is late may take
any character for the first of them. -/
theorem not_late_values {n fuel : Nat} {r r₁ r₂ r₃ r₄ r₅ : List Char} {params : List Nat}
    (hclose : Sql.punct ')' r = some r₁) (hvalues : Sql.keyword "values" r₁ = some r₂)
    (hopen : Sql.punct '(' r₂ = some r₃)
    (hparams : Sql.sepBy Sql.param (Sql.punct ',') fuel r₃ = some (params, r₄))
    (hclose' : Sql.punct ')' r₄ = some r₅) : ¬ Sql.Late (valuesText n) r := by
  intro ⟨hsuffix, hlt⟩
  obtain ⟨a, rfl, ha⟩ := Sql.punct_spec hclose
  obtain ⟨b, rfl, hb⟩ := Sql.punct_spec hopen
  obtain ⟨c, rfl, -⟩ := Sql.punct_spec hclose'
  have hinner : ')' :: c <:+ a :=
    (Sql.sepBy_suffix (fun _ _ _ => Sql.param_suffix) (fun _ _ => Sql.punct_suffix) hparams).trans
      ((Sql.blanks_suffix hb).trans ((List.suffix_cons _ _).trans
        ((Sql.keyword_suffix hvalues).trans (Sql.blanks_suffix ha))))
  rw [valuesText_eq, List.suffix_cons_iff] at hsuffix
  rcases hsuffix with heq | hsuffix
  · rw [valuesText_eq, heq] at hlt
    exact absurd hlt (Nat.lt_irrefl _)
  · have hcount := hsuffix.sublist.count_le ')'
    have hfront : margin.count ')' = 0 ∧ "VALUES".toList.count ')' = 0 ∧
        conflictText.count ')' = 1 := by decide
    have hpos : 0 < a.count ')' := List.count_pos_iff.mpr (hinner.subset (List.mem_cons_self ..))
    have hzero : (paramsText n).count ')' = 0 := List.count_eq_zero.mpr (not_mem_paramsText n)
    simp only [List.count_cons, List.count_append, hfront, hzero] at hcount
    simp at hcount
    omega

/-- The same of an insertion. Here the names are in the parenthesis before `VALUES`, and that
nothing is late in the end is seen from the parentheses that are left to be closed. -/
theorem names_of_insert (hne : cells ≠ []) {args : List String}
    (h : request (Statement.insert (schema ++ "." ++ table) (quoteAll cells)).query args
      = some (.insert schema table cells)) :
    Unquoted schema table ∧ Unbroken cells := by
  obtain ⟨columns, params, rfl, hcommand⟩ := request_insert h
  rw [insert_text schema table hne, Sql.command_insert margin_space] at hcommand
  simp only [Option.bind_eq_some_iff, Sql.complete_eq_some] at hcommand
  obtain ⟨cs, hcs, _, hinsert, rfl⟩ := hcommand
  simp only [Sql.insertCommand, Option.bind_eq_bind, Option.bind_eq_some_iff, Option.pure_def,
    Option.some.injEq, Prod.mk.injEq, Sql.Command.insert.injEq, Prod.exists] at hinsert
  obtain ⟨r₁, hinto, _, _, r₂, hrel, r₃, hopen, _, r₄, hreadColumns, r₅, hclose, r₆, hvalues, r₇,
    hopen', _, r₈, hparams, r₉, hclose', -, -, -, -, -, -, -, -, ⟨⟨rfl, rfl⟩, rfl, rfl⟩, -⟩ := hinsert
  have hbare : Sql.Bare "INTO".toList := by decide
  have hsuffix := Sql.blanks_suffix (Sql.blanks_of_keyword hbare (by decide) hcs hinto)
  have hend : ¬ Sql.Late (Sql.lastCore (insertSlots cells)) r₄ := by
    rw [insertSlots, Sql.lastCore_chain 1 (names_ne_nil hne)]
    exact not_late_values hclose hvalues hopen' hparams hclose'
  obtain ⟨hplain, hnames⟩ := Sql.relation_names Sql.opening_paren (insertSlots_slots hne)
    (Sql.all_space (by decide)) hsuffix hrel hopen (reads_columns hreadColumns) hend
  exact ⟨unquoted_of_plain hplain, unbroken_of_slots (Sql.chain_names _ _) hnames⟩

end

/-! ## Plain names are read

The direct one, token by token along the text, list by list. -/

section

variable {schema table : String} {sets wheres cells : List (String × String)}

/-- No statement has more columns than characters, so the fuel of `Sql.sepBy`, which is the
length of the text, is enough. -/
theorem names_length_le {slots : List Sql.Slot} (h : slots.map Sql.Slot.name = names cells) :
    (names cells).length ≤ (Sql.slotsText slots).length := by
  rw [← h, List.length_map]
  exact Sql.length_le_slotsText slots

/-- Names PostgreSQL can give, without a quote in them, are read between quotes as they are. -/
theorem quotable_names (hvalid : ∀ c ∈ cells, Identifier c.1) (h : Unbroken cells) :
    ∀ name ∈ names cells, Sql.Quotable name := by
  intro name hname
  obtain ⟨c, hc, rfl⟩ := List.mem_map.mp hname
  have hempty : c.1.toList ≠ [] := fun hnil =>
    (hvalid c hc).ne_empty (String.toList_eq_nil_iff.mp hnil)
  exact ⟨hempty, h c hc, (hvalid c hc).bytes⟩

/-- The relation is read as it is, up to the text after it. The names are folded to lower case
and cut at 63 bytes by the reader, and neither changes them. -/
theorem relation_unquoted (h : Unquoted schema table) (hschema : Identifier schema)
    (htable : Identifier table) {ws core : List Char} (hgap : Sql.Gap ws core)
    (hends : Sql.EndsWord (ws ++ core)) :
    Sql.relation (schema.toList ++ '.' :: (table.toList ++ (ws ++ core)))
      = some ((schema.toList, table.toList), core) := by
  refine Sql.relation_plain h.schema_plain h.table_plain hschema.bytes htable.bytes ?_ hgap hends
  rw [String.ofList_toList]
  exact h.not_keyword

/-- The `SET` list is read whole, and the reader comes out at the keyword `WHERE`. -/
theorem read_sets {fuel : Nat} (hne : sets ≠ []) (hfuel : (names sets).length ≤ fuel)
    (hnames : ∀ name ∈ names sets, Sql.Quotable name) (rest : List Char) :
    Sql.sepBy Sql.assignment (Sql.punct ',') fuel (Sql.slotsText (setSlots sets) ++ rest)
      = some ((names sets).zipIdx 1, "WHERE ".toList ++ rest) := by
  have hmid : ", ".toList = [] ++ [',', ' '] := by decide
  have hlast : "\n            WHERE ".toList ++ rest = margin ++ ("WHERE ".toList ++ rest) := rfl
  have hgap : Sql.Gap margin ("WHERE ".toList ++ rest) := ⟨margin_space, opening_where.solid⟩
  exact Sql.sepBy_assignments Sql.between_comma (by decide) hmid hlast hgap
    (margin_endsParam _) rfl (names_ne_nil hne) hfuel hnames

/-- The `WHERE` list is read whole, and nothing is left. -/
theorem read_wheres {fuel : Nat} (k : Nat) (hne : wheres ≠ [])
    (hfuel : (names wheres).length ≤ fuel) (hnames : ∀ name ∈ names wheres, Sql.Quotable name) :
    Sql.sepBy Sql.assignment (Sql.keyword "and") fuel (Sql.slotsText (whereSlots k wheres))
      = some ((names wheres).zipIdx k, []) := by
  have hmid : " AND ".toList = [' '] ++ "AND ".toList := by decide
  have hgap : Sql.Gap "\n        ".toList [] := ⟨Sql.all_space (by decide), by decide⟩
  rw [← List.append_nil (Sql.slotsText _)]
  exact Sql.sepBy_assignments Sql.between_and (by decide) hmid rfl hgap (by decide) rfl
    (names_ne_nil hne) hfuel hnames

/-- The schema begins what follows a blank. -/
theorem blanks_schema (h : Unquoted schema table) (rest : List Char) :
    Sql.blanks (schema.toList ++ rest) = some (schema.toList ++ rest) :=
  (h.schema_plain.bare.solid rest).blanks

/-- The whole text of an update, read token by token by the rules of the list and of the
relation. The parameters of the conditions go on where those of the assignments end. -/
theorem command_update_names (h : Unquoted schema table) (hschema : Identifier schema)
    (htable : Identifier table) (hsets : sets ≠ []) (hwheres : wheres ≠ [])
    (hnames : ∀ name ∈ names sets, Sql.Quotable name)
    (hnames' : ∀ name ∈ names wheres, Sql.Quotable name) :
    Sql.command (Statement.update (schema ++ "." ++ table) (quoteAll sets)
      (quoteAll wheres)).query.toList
        = some (.update (schema.toList, table.toList) ((names sets).zipIdx 1)
            ((names wheres).zipIdx (1 + sets.length))) := by
  -- the text as two chains of names, with what leads to each
  have hslots := whereSlots_slots (1 + sets.length) hwheres
  have hall := Sql.Slots.append (setSlots_leads sets) hslots
  have hgap : Sql.Gap margin ("SET ".toList ++
      Sql.slotsText (setSlots sets ++ whereSlots (1 + sets.length) wheres)) :=
    ⟨margin_space, opening_set.solid⟩
  have hset : Sql.keyword "set" ("SET ".toList ++
      Sql.slotsText (setSlots sets ++ whereSlots (1 + sets.length) wheres))
        = some (Sql.slotsText (setSlots sets ++ whereSlots (1 + sets.length) wheres)) :=
    opening_set.leads hall
  have hwhere : Sql.keyword "where" ("WHERE ".toList ++
      Sql.slotsText (whereSlots (1 + sets.length) wheres))
        = some (Sql.slotsText (whereSlots (1 + sets.length) wheres)) :=
    opening_where.leads hslots
  rw [update_text schema table hsets hwheres, Sql.command_update margin_space, blanks_schema h,
    Option.bind_some]
  -- the length of the text is enough fuel for both lists
  generalize hfuel : (margin ++ _).length = fuel
  have hlength : (names sets).length ≤ (Sql.slotsText (setSlots sets)).length :=
    names_length_le (Sql.chain_names _ _)
  have hlength' : (names wheres).length
      ≤ (Sql.slotsText (whereSlots (1 + sets.length) wheres)).length :=
    names_length_le (Sql.chain_names _ _)
  rw [Sql.slotsText_append] at hfuel
  simp only [List.length_append, List.length_cons] at hfuel
  have hfuelSets : (names sets).length ≤ fuel := by omega
  have hfuelWheres : (names wheres).length ≤ fuel := by omega
  -- and both are read whole, with consecutive numbers
  have hreadSets := read_sets hsets hfuelSets hnames
    (Sql.slotsText (whereSlots (1 + sets.length) wheres))
  have hreadWheres := read_wheres (1 + sets.length) hwheres hfuelWheres hnames'
  rw [← Sql.slotsText_append] at hreadSets
  simp only [Sql.updateCommand, relation_unquoted h hschema htable hgap (margin_endsWord _), hset,
    hreadSets, hwhere, hreadWheres, Option.bind_eq_bind, Option.bind_some, Option.pure_def]
  rfl

/-- Quoting a column leaves its value. -/
theorem quoteAll_values (cells : List (String × String)) :
    (quoteAll cells).map Prod.snd = cells.map Prod.snd := by
  rw [quoteAll, List.map_map]
  rfl

/-- **An update of such names asks for itself.** The arguments come in the order of the
parameters: the new values, and behind them the old ones. -/
theorem update_of_names (h : Unquoted schema table) (hschema : Identifier schema)
    (htable : Identifier table) (hsets : sets ≠ []) (hwheres : wheres ≠ [])
    (hvalid : ∀ c ∈ sets, Identifier c.1) (hvalid' : ∀ c ∈ wheres, Identifier c.1)
    (hunbroken : Unbroken sets) (hunbroken' : Unbroken wheres) :
    request (Statement.update (schema ++ "." ++ table) (quoteAll sets) (quoteAll wheres)).query
      (Statement.update (schema ++ "." ++ table) (quoteAll sets) (quoteAll wheres)).args
        = some (.update schema table sets wheres) := by
  have hcommand := command_update_names h hschema htable hsets hwheres
    (quotable_names hvalid hunbroken) (quotable_names hvalid' hunbroken')
  have hpairs : paired (sets.map Prod.snd ++ wheres.map Prod.snd) ((names sets).zipIdx 1)
      = some sets := paired_zipIdx [] (wheres.map Prod.snd) sets
  have hpairs' := paired_zipIdx (sets.map Prod.snd) [] wheres
  rw [List.append_nil, List.length_map, Nat.add_comm] at hpairs'
  rw [request, hcommand, Statement.args, quoteAll_values, quoteAll_values]
  simp only [hpairs, hpairs', Option.bind_eq_bind, Option.bind_some, Option.pure_def,
    String.ofList_toList]

/-- The whole text of a deletion, read. -/
theorem command_delete_names (h : Unquoted schema table) (hschema : Identifier schema)
    (htable : Identifier table) (hwheres : wheres ≠ [])
    (hnames : ∀ name ∈ names wheres, Sql.Quotable name) :
    Sql.command (Statement.delete (schema ++ "." ++ table) (quoteAll wheres)).query.toList
      = some (.delete (schema.toList, table.toList) ((names wheres).zipIdx 1)) := by
  have hgap : Sql.Gap margin ("WHERE ".toList ++ Sql.slotsText (whereSlots 1 wheres)) :=
    ⟨margin_space, opening_where.solid⟩
  have hwhere : Sql.keyword "where" ("WHERE ".toList ++ Sql.slotsText (whereSlots 1 wheres))
      = some (Sql.slotsText (whereSlots 1 wheres)) := opening_where.leads (whereSlots_slots 1 hwheres)
  have hbare : Sql.Bare "FROM".toList := by decide
  rw [delete_text schema table hwheres, Sql.command_delete margin_space, (hbare.solid _).blanks,
    Option.bind_some]
  generalize hfuel : (margin ++ _).length = fuel
  have hlength : (names wheres).length ≤ (Sql.slotsText (whereSlots 1 wheres)).length :=
    names_length_le (Sql.chain_names _ _)
  simp only [List.length_append, List.length_cons] at hfuel
  have hfuelWheres : (names wheres).length ≤ fuel := by omega
  have hreadWheres := read_wheres 1 hwheres hfuelWheres hnames
  rw [Sql.deleteCommand, Sql.keyword_blank hbare (by decide), blanks_schema h]
  simp only [relation_unquoted h hschema htable hgap (margin_endsWord _), hwhere, hreadWheres,
    Option.bind_eq_bind, Option.bind_some, Option.pure_def]
  rfl

/-- A deletion with such names asks for itself. -/
theorem delete_of_names (h : Unquoted schema table) (hschema : Identifier schema)
    (htable : Identifier table) (hwheres : wheres ≠ [])
    (hvalid : ∀ c ∈ wheres, Identifier c.1) (hunbroken : Unbroken wheres) :
    request (Statement.delete (schema ++ "." ++ table) (quoteAll wheres)).query
      (Statement.delete (schema ++ "." ++ table) (quoteAll wheres)).args
        = some (.delete schema table wheres) := by
  have hcommand := command_delete_names h hschema htable hwheres (quotable_names hvalid hunbroken)
  have hpairs := paired_zipIdx [] [] wheres
  rw [List.append_nil, List.nil_append] at hpairs
  have hpairs' : paired (wheres.map Prod.snd) ((names wheres).zipIdx 1) = some wheres := hpairs
  rw [request, hcommand, Statement.args, quoteAll_values]
  simp only [hpairs', Option.bind_eq_bind, Option.bind_some, Option.pure_def, String.ofList_toList]

/-- A truncation asks for itself under the condition on the relation alone. -/
theorem truncate_of_names (h : Unquoted schema table) (hschema : Identifier schema)
    (htable : Identifier table) :
    request (Statement.truncate (schema ++ "." ++ table)).query
      (Statement.truncate (schema ++ "." ++ table)).args = some (.truncate schema table) := by
  have hspace : ∀ c ∈ ([] : List Char), Sql.isSpace c = true := Sql.all_space rfl
  have hgap : Sql.Gap [] [] := ⟨hspace, by decide⟩
  have hbare : Sql.Bare "TABLE".toList := by decide
  have hcommand : Sql.command (Statement.truncate (schema ++ "." ++ table)).query.toList
      = some (.truncate (schema.toList, table.toList)) := by
    rw [truncate_text, Sql.command_truncate hspace, (hbare.solid _).blanks, Option.bind_some,
      Sql.truncateCommand, Sql.keyword_blank hbare (by decide), blanks_schema h]
    simp only [relation_unquoted h hschema htable hgap (by decide), Option.bind_eq_bind,
      Option.bind_some, Option.pure_def]
    rfl
  rw [request, hcommand]
  simp only [Option.bind_eq_bind, Option.bind_some, Option.pure_def, String.ofList_toList]

/-- Two parameters or more start with the first. -/
theorem join_placeholders (k n : Nat) :
    (join ", " ((List.range' k (n + 2)).map placeholder)).toList
      = Sql.paramText k ++ ([',', ' '] ++
          (join ", " ((List.range' (k + 1) (n + 1)).map placeholder)).toList) := by
  have hcomma : ", ".toList = [',', ' '] := by decide
  rw [List.range'_succ, List.range'_succ, List.map_cons, List.map_cons, join,
    String.toList_append, String.toList_append, placeholder_toList, hcomma, List.append_assoc]

/-- A single parameter, without a comma. -/
theorem join_placeholder (k : Nat) :
    (join ", " ((List.range' k 1).map placeholder)).toList = Sql.paramText k :=
  placeholder_toList k

/-- No blank stands before the parameters, so the reader has nothing to skip there. -/
theorem params_solid (k n : Nat) (rest : List Char) :
    Sql.Solid ((join ", " ((List.range' k (n + 1)).map placeholder)).toList ++ rest) := by
  cases n with
  | zero =>
      rw [join_placeholder]
      simp [Sql.Solid, Sql.paramText, Sql.isSpace]
  | succ n =>
      rw [join_placeholders]
      simp [Sql.Solid, Sql.paramText, Sql.isSpace]

/-- The list of parameters is read whole, by induction on their number. -/
theorem read_params {fuel : Nat} (k n : Nat) (hfuel : n < fuel) :
    Sql.sepBy Sql.param (Sql.punct ',') fuel
      ((join ", " ((List.range' k (n + 1)).map placeholder)).toList ++ conflictText)
        = some (List.range' k (n + 1), conflictText) := by
  induction n generalizing k fuel with
  | zero =>
      obtain ⟨fuel, rfl⟩ : ∃ m, fuel = m + 1 := ⟨fuel - 1, by omega⟩
      have hgap : Sql.Gap [] conflictText := ⟨by simp, by decide⟩
      have hparam : Sql.param (Sql.paramText k ++ ([] ++ conflictText)) = some (k, conflictText) :=
        Sql.param_paramText k (by decide) hgap
      have hstop : Sql.punct ',' conflictText = none := by decide
      rw [List.nil_append] at hparam
      rw [join_placeholder, Sql.sepBy, hparam, Option.bind_some]
      simp only [hstop]
      rfl
  | succ n ih =>
      obtain ⟨fuel, rfl⟩ : ∃ m, fuel = m + 1 := ⟨fuel - 1, by omega⟩
      have hrest := ih (k + 1) (Nat.lt_of_succ_lt_succ hfuel)
      have hsolid := params_solid (k + 1) n conflictText
      have hrange : List.range' k (n + 1 + 1) = k :: List.range' (k + 1) (n + 1) :=
        List.range'_succ
      rw [join_placeholders, List.append_assoc, List.append_assoc, hrange]
      generalize (join ", " ((List.range' (k + 1) (n + 1)).map placeholder)).toList ++ conflictText
        = rest at hrest hsolid
      have hgap : Sql.Gap [] ([',', ' '] ++ rest) := ⟨by simp, by simp [Sql.Solid, Sql.isSpace]⟩
      have hends : Sql.EndsParam ([] ++ ([',', ' '] ++ rest)) := by
        intro d hd
        obtain rfl : ',' = d := Option.some.inj hd
        decide
      have hparam : Sql.param (Sql.paramText k ++ ([] ++ ([',', ' '] ++ rest)))
          = some (k, [',', ' '] ++ rest) := Sql.param_paramText k hends hgap
      have hcomma : Sql.punct ',' ([',', ' '] ++ rest) = some rest := by
        change Sql.blanks (' ' :: rest) = some rest
        rw [Sql.blanks_blank, hsolid.blanks]
      rw [List.nil_append] at hparam
      rw [Sql.sepBy, hparam, Option.bind_some]
      simp only [hcomma, hrest, Option.map_some]

/-- The columns of an insertion are read whole, and the reader comes out at the parenthesis that
closes them. -/
theorem read_columns {fuel : Nat} (hne : cells ≠ []) (hfuel : (names cells).length ≤ fuel)
    (hnames : ∀ name ∈ names cells, Sql.Quotable name) :
    Sql.sepBy (Sql.ident false) (Sql.punct ',') fuel (Sql.slotsText (insertSlots cells))
      = some (names cells, valuesText cells.length) := by
  have hcomma : ", ".toList = [',', ' '] := by decide
  have hstop : Sql.punct ',' (valuesText cells.length) = none := by
    rw [valuesText_eq]
    rfl
  have hpairs : ((names cells).zipIdx 1).map (fun p => p.1) = names cells := List.zipIdx_map_fst ..
  rw [← List.append_nil (Sql.slotsText _)]
  refine Eq.trans ?_ (congrArg (fun l => some (l, valuesText cells.length)) hpairs)
  refine Sql.sepBy_chain Sql.Quotable (fun name _ => name) (fun name _ rest hname => ?_)
    (fun name _ hname => ?_) hstop (names_ne_nil hne) hfuel hnames
  · have hgap : Sql.Gap [] (", ".toList ++ '"' :: rest) := by
      rw [hcomma]
      exact ⟨by simp, by simp [Sql.Solid, Sql.isSpace]⟩
    refine ⟨", ".toList ++ '"' :: rest, hname.ident hgap ?_ false, ?_⟩
    · rw [hcomma]
      simp
    · rw [hcomma, Sql.punct_in_step]
  · rw [List.append_nil]
    have hgap : Sql.Gap [] (valuesText cells.length) := by
      rw [valuesText_eq]
      exact ⟨by simp, by simp [Sql.Solid, Sql.isSpace]⟩
    refine hname.ident hgap ?_ false
    rw [valuesText_eq]
    simp

/-- What follows the columns of an insertion. -/
theorem punct_valuesText (n : Nat) : Sql.punct ')' (valuesText n)
    = some ("VALUES".toList ++ ' ' :: ('(' :: (paramsText n ++ conflictText))) := by
  have hbare : Sql.Bare "VALUES".toList := by decide
  have hgap : Sql.Gap margin ("VALUES".toList ++ ' ' :: ('(' :: (paramsText n ++ conflictText))) :=
    ⟨margin_space, hbare.solid _⟩
  rw [valuesText_eq, Sql.punct, if_pos rfl, hgap.blanks]

/-- The keyword between the columns and the parameters; what follows it begins with a
parenthesis, which ends the word. -/
theorem keyword_values (rest : List Char) :
    Sql.keyword "values" ("VALUES".toList ++ ' ' :: ('(' :: rest)) = some ('(' :: rest) := by
  have hbare : Sql.Bare "VALUES".toList := by decide
  rw [Sql.keyword_blank hbare (by decide), Sql.blanks_cons (by decide)]

/-- The parenthesis before the parameters, of which there is at least one: a record without
values makes no insertion. -/
theorem punct_paramsText {n : Nat} (hn : n ≠ 0) :
    Sql.punct '(' ('(' :: (paramsText n ++ conflictText)) = some (paramsText n ++ conflictText) := by
  obtain ⟨n, rfl⟩ := Nat.exists_eq_succ_of_ne_zero hn
  rw [paramsText, Sql.punct, if_pos rfl, (params_solid 1 n conflictText).blanks]

/-- The parameters of an insertion are read, each with its number. -/
theorem read_paramsText {fuel n : Nat} (hn : n ≠ 0) (hfuel : n ≤ fuel) :
    Sql.sepBy Sql.param (Sql.punct ',') fuel (paramsText n ++ conflictText)
      = some (List.range' 1 n, conflictText) := by
  obtain ⟨n, rfl⟩ := Nat.exists_eq_succ_of_ne_zero hn
  exact read_params 1 n hfuel

/-- The whole text of an insertion, read, up to its `ON CONFLICT DO NOTHING`. -/
theorem command_insert_names (h : Unquoted schema table) (hschema : Identifier schema)
    (htable : Identifier table) (hne : cells ≠ [])
    (hnames : ∀ name ∈ names cells, Sql.Quotable name) :
    Sql.command (Statement.insert (schema ++ "." ++ table) (quoteAll cells)).query.toList
      = some (.insert (schema.toList, table.toList) (names cells)
          (List.range' 1 cells.length)) := by
  have hn : cells.length ≠ 0 := Nat.ne_of_gt (List.length_pos_of_ne_nil hne)
  have hgap : Sql.Gap [' '] ('(' :: Sql.slotsText (insertSlots cells)) :=
    ⟨Sql.all_space (by decide), Sql.opening_paren.solid⟩
  have hends : Sql.EndsWord ([' '] ++ '(' :: Sql.slotsText (insertSlots cells)) :=
    Sql.endsWord_blank _
  have hopen : Sql.punct '(' ('(' :: Sql.slotsText (insertSlots cells))
      = some (Sql.slotsText (insertSlots cells)) := Sql.opening_paren.leads (insertSlots_slots hne)
  have hinto : Sql.Bare "INTO".toList := by decide
  have hclose' : Sql.punct ')' conflictText = some "ON CONFLICT DO NOTHING\n        ".toList := by
    decide
  have hon : Sql.keyword "on" "ON CONFLICT DO NOTHING\n        ".toList
      = some "CONFLICT DO NOTHING\n        ".toList := by decide
  have hconflict : Sql.keyword "conflict" "CONFLICT DO NOTHING\n        ".toList
      = some "DO NOTHING\n        ".toList := by decide
  have hdo : Sql.keyword "do" "DO NOTHING\n        ".toList
      = some "NOTHING\n        ".toList := by decide
  have hnothing : Sql.keyword "nothing" "NOTHING\n        ".toList = some [] := by decide
  rw [insert_text schema table hne, Sql.command_insert margin_space, (hinto.solid _).blanks,
    Option.bind_some]
  generalize hfuel : (margin ++ _).length = fuel
  have hlength : (names cells).length ≤ (Sql.slotsText (insertSlots cells)).length :=
    names_length_le (Sql.chain_names _ _)
  have hcells : (names cells).length = cells.length := List.length_map _
  simp only [List.length_append, List.length_cons] at hfuel
  have hfuelColumns : (names cells).length ≤ fuel := by omega
  have hreadColumns := read_columns hne hfuelColumns hnames
  have hreadParams : Sql.sepBy Sql.param (Sql.punct ',') fuel
      (paramsText cells.length ++ conflictText) = some (List.range' 1 cells.length, conflictText) :=
    read_paramsText hn (by omega)
  rw [Sql.insertCommand, Sql.keyword_blank hinto (by decide), blanks_schema h]
  simp only [relation_unquoted h hschema htable hgap hends, hopen, hreadColumns, punct_valuesText,
    keyword_values, punct_paramsText hn, hreadParams, hclose', hon, hconflict, hdo, hnothing,
    Option.bind_eq_bind, Option.bind_some, Option.pure_def]
  rfl

/-- An insertion of such names asks for itself. -/
theorem insert_of_names (h : Unquoted schema table) (hschema : Identifier schema)
    (htable : Identifier table) (hne : cells ≠ []) (hvalid : ∀ c ∈ cells, Identifier c.1)
    (hunbroken : Unbroken cells) :
    request (Statement.insert (schema ++ "." ++ table) (quoteAll cells)).query
      (Statement.insert (schema ++ "." ++ table) (quoteAll cells)).args
        = some (.insert schema table cells) := by
  have hcommand := command_insert_names h hschema htable hne (quotable_names hvalid hunbroken)
  have hlength : (names cells).length = cells.length := List.length_map _
  have hpairs := paired_zipIdx [] [] cells
  rw [List.append_nil, List.nil_append, List.zipIdx_eq_zip_range', hlength] at hpairs
  have hpairs' : paired (cells.map Prod.snd) ((names cells).zip (List.range' 1 cells.length))
      = some cells := hpairs
  have hcount : (names cells).length = (List.range' 1 cells.length).length := by
    rw [hlength, List.length_range']
  rw [request, hcommand, Statement.args, quoteAll_values]
  simp only [if_pos hcount, hpairs', Option.bind_eq_bind, Option.bind_some, Option.pure_def,
    String.ofList_toList]

end

/-! ## What is generated for a record

The two directions put together for the statement that the applier makes of a record. -/

/-- A record of that relation, with names PostgreSQL has. -/
structure Named (schema table : String) (event : ChangeRecord) : Prop where
  table_eq : event.table = schema ++ "." ++ table
  schema_valid : Identifier schema
  table_valid : Identifier table
  columns_valid : ∀ e ∈ event.new.entries ++ event.old.entries, Identifier e.1

/-- The text is one statement, and asks for that. -/
def Means (statement : Statement) (wanted : Request) : Prop :=
  request statement.query statement.args = some wanted

instance (statement : Statement) (wanted : Request) : Decidable (Means statement wanted) :=
  inferInstanceAs (Decidable (_ = _))

section

variable {schema table : String} {event : ChangeRecord} {statement : Statement}

/-- `if not event.new` and its kin: the applier makes no statement of a record without values,
so the lists of a statement it makes are not empty. -/
theorem entries_ne_nil {values : Dict String String} (h : values.isEmpty = false) :
    values.entries ≠ [] := by
  intro hnil
  rw [Dict.isEmpty, hnil] at h
  cases h

/-- The two directions for one operation, put together: from the request to the names by
`names_of_insert`, and from the names to the request by `insert_of_names`. -/
theorem insert_means_iff (h : Named schema table event)
    (hstatement : apply_insert event = some statement) :
    Means statement (.insert schema table event.new.entries) ↔
      Unquoted schema table ∧ Unbroken event.new.entries := by
  simp only [apply_insert, Option.ite_none_left_eq_some, Option.some.injEq,
    Bool.not_eq_true] at hstatement
  obtain ⟨hnew, rfl⟩ := hstatement
  rw [h.table_eq]
  constructor
  · exact names_of_insert (entries_ne_nil hnew)
  · rintro ⟨hunquoted, hunbroken⟩
    exact insert_of_names hunquoted h.schema_valid h.table_valid (entries_ne_nil hnew)
      (fun c hc => h.columns_valid c (List.mem_append_left _ hc)) hunbroken

/-- The same for an update, whose old and new columns are both put into the text. -/
theorem update_means_iff (h : Named schema table event)
    (hstatement : apply_update event = some statement) :
    Means statement (.update schema table event.new.entries event.old.entries) ↔
      Unquoted schema table ∧ Unbroken event.new.entries ∧ Unbroken event.old.entries := by
  simp only [apply_update, Option.ite_none_left_eq_some, Option.some.injEq, Bool.or_eq_true,
    not_or, Bool.not_eq_true] at hstatement
  obtain ⟨⟨hnew, hold⟩, rfl⟩ := hstatement
  rw [h.table_eq]
  constructor
  · exact names_of_update (entries_ne_nil hnew) (entries_ne_nil hold)
  · rintro ⟨hunquoted, hunbroken, hunbroken'⟩
    exact update_of_names hunquoted h.schema_valid h.table_valid (entries_ne_nil hnew)
      (entries_ne_nil hold) (fun c hc => h.columns_valid c (List.mem_append_left _ hc))
      (fun c hc => h.columns_valid c (List.mem_append_right _ hc)) hunbroken hunbroken'

/-- The same for a deletion, which only names the old columns. -/
theorem delete_means_iff (h : Named schema table event)
    (hstatement : apply_delete event = some statement) :
    Means statement (.delete schema table event.old.entries) ↔
      Unquoted schema table ∧ Unbroken event.old.entries := by
  simp only [apply_delete, Option.ite_none_left_eq_some, Option.some.injEq,
    Bool.not_eq_true] at hstatement
  obtain ⟨hold, rfl⟩ := hstatement
  rw [h.table_eq]
  constructor
  · exact names_of_delete (entries_ne_nil hold)
  · rintro ⟨hunquoted, hunbroken⟩
    exact delete_of_names hunquoted h.schema_valid h.table_valid (entries_ne_nil hold)
      (fun c hc => h.columns_valid c (List.mem_append_right _ hc)) hunbroken

/-- The same for a truncation, where only the relation matters. -/
theorem truncate_means_iff (h : Named schema table event)
    (hstatement : apply_truncate event = some statement) :
    Means statement (.truncate schema table) ↔ Unquoted schema table := by
  obtain rfl := Option.some.inj hstatement
  rw [h.table_eq]
  constructor
  · exact names_of_truncate
  · exact fun hunquoted => truncate_of_names hunquoted h.schema_valid h.table_valid

/-- **What a generated statement means.** It asks for the record's change if and only if the
relation's names are read as they are without quotes, and no column in the text has a quote in
its name. -/
theorem query_means_record_iff (h : Named schema table event) :
    (∀ s ∈ apply_insert event, Means s (.insert schema table event.new.entries) ↔
      Unquoted schema table ∧ Unbroken event.new.entries) ∧
    (∀ s ∈ apply_update event,
      Means s (.update schema table event.new.entries event.old.entries) ↔
        Unquoted schema table ∧ Unbroken event.new.entries ∧ Unbroken event.old.entries) ∧
    (∀ s ∈ apply_delete event, Means s (.delete schema table event.old.entries) ↔
      Unquoted schema table ∧ Unbroken event.old.entries) ∧
    (∀ s ∈ apply_truncate event, Means s (.truncate schema table) ↔ Unquoted schema table) :=
  ⟨fun _ hs => insert_means_iff h hs, fun _ hs => update_means_iff h hs,
    fun _ hs => delete_means_iff h hs, fun _ hs => truncate_means_iff h hs⟩

end

/-- An update of `public.orders`, with a column that needs its quotes. -/
def order_update : ChangeRecord :=
  ⟨"0/16B3748", 0, "public.orders", "UPDATE", .ofPairs [("id", "7")],
    .ofPairs [("id", "7"), ("Ship to", "x")]⟩

/-- The names of the sample are names PostgreSQL can give. -/
theorem order_update_named : Named "public" "orders" order_update := by
  have hpublic : Identifier "public" := ⟨by decide, by decide, by decide⟩
  have horders : Identifier "orders" := ⟨by decide, by decide, by decide⟩
  have hid : Identifier "id" := ⟨by decide, by decide, by decide⟩
  have hship : Identifier "Ship to" := ⟨by decide, by decide, by decide⟩
  have hentries : order_update.new.entries ++ order_update.old.entries
      = [("id", "7"), ("Ship to", "x"), ("id", "7")] := by decide
  refine ⟨by decide, hpublic, horders, ?_⟩
  rw [hentries]
  simp [hid, hship]

/-- The space in the column's name does no harm, as it stands between quotes. -/
theorem query_means_record_iff_order :
    Means (.update "public.orders" [("\"id\"", "7"), ("\"Ship to\"", "x")] [("\"id\"", "7")])
      (.update "public" "orders" [("id", "7"), ("Ship to", "x")] [("id", "7")]) :=
  ((query_means_record_iff order_update_named).2.1 _ (by decide)).mpr
    ⟨⟨by decide, by decide, by decide⟩, by decide, by decide⟩

/-- A deletion by one column. -/
def order_delete (table column : String) : ChangeRecord :=
  ⟨"0/16B3749", 0, "public." ++ table, "DELETE", .ofPairs [(column, "7")], .empty⟩

/-- The names of a deletion by one column are, if PostgreSQL can give those of its table and
column. -/
theorem order_delete_named {table column : String} (htable : Identifier table)
    (hcolumn : Identifier column) : Named "public" table (order_delete table column) := by
  have hdot : "public." = "public" ++ "." := by decide
  refine ⟨?_, ⟨by decide, by decide, by decide⟩, htable, ?_⟩
  · rw [order_delete, hdot]
  · intro e he
    have hentries : (order_delete table column).new.entries ++
        (order_delete table column).old.entries = [(column, "7")] := rfl
    rw [hentries, List.mem_singleton] at he
    rw [he]
    exact hcolumn

/-- `public.Orders` is read as `public.orders`, and one column with a quote in its name as
two. -/
theorem other_table_or_columns :
    (Named "public" "Orders" (order_delete "Orders" "id") ∧
      ∃ s ∈ apply_delete (order_delete "Orders" "id"),
        Means s (.delete "public" "orders" [("id", "7")]) ∧
        ¬ Means s (.delete "public" "Orders" [("id", "7")])) ∧
    Named "public" "orders" (order_delete "orders" "id\" = $1 AND \"qty") ∧
      ∃ s ∈ apply_delete (order_delete "orders" "id\" = $1 AND \"qty"),
        Means s (.delete "public" "orders" [("id", "7"), ("qty", "7")]) ∧
        ¬ Means s (.delete "public" "orders" [("id\" = $1 AND \"qty", "7")]) := by
  have hid : Identifier "id" := ⟨by decide, by decide, by decide⟩
  have horders : Identifier "orders" := ⟨by decide, by decide, by decide⟩
  have hOrders : Identifier "Orders" := ⟨by decide, by decide, by decide⟩
  have hquotes : Identifier "id\" = $1 AND \"qty" := ⟨by decide, by decide, by decide⟩
  refine ⟨⟨order_delete_named hOrders hid, _, rfl, ?_, ?_⟩,
    order_delete_named horders hquotes, _, rfl, ?_, ?_⟩
  all_goals decide +kernel

end WalStream.Replayer
