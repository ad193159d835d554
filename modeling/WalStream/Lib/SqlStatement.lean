/-
The statements that write rows, as PostgreSQL reads them.

Of PostgreSQL's grammar only the forms below are here: one relation with its schema, columns
by name, and a parameter for every value.

Nothing here names a particular program.
-/
import WalStream.Lib.Sql

set_option autoImplicit false

namespace WalStream.Lib.Sql

/-! ## Tokens -/

/-- The keywords that are no `ColId`: the reserved ones, and those for functions and types. -/
def notColId : List String :=
  ["all", "analyse", "analyze", "and", "any", "array", "as", "asc", "asymmetric",
    "authorization", "binary", "both", "case", "cast", "check", "collate", "collation", "column",
    "concurrently", "constraint", "create", "cross", "current_catalog", "current_date",
    "current_role", "current_schema", "current_time", "current_timestamp", "current_user",
    "default", "deferrable", "desc", "distinct", "do", "else", "end", "except", "false", "fetch",
    "for", "foreign", "freeze", "from", "full", "grant", "group", "having", "ilike", "in",
    "initially", "inner", "intersect", "into", "is", "isnull", "join", "lateral", "leading",
    "left", "like", "limit", "localtime", "localtimestamp", "natural", "not", "notnull", "null",
    "offset", "on", "only", "or", "order", "outer", "overlaps", "placing", "primary",
    "references", "returning", "right", "select", "session_user", "similar", "some", "symmetric",
    "system_user", "table", "tablesample", "then", "to", "trailing", "true", "union", "unique",
    "user", "using", "variadic", "verbose", "when", "where", "window", "with"]

/-- A name, `ColId` or `ColLabel`. A label may be any keyword. -/
def ident (label : Bool) (cs : List Char) : Option (List Char × List Char) :=
  (readWord cs).bind fun r =>
    if label = false ∧ r.1.quoted = false ∧ String.ofList r.1.name ∈ notColId then none
    else (blanks r.2).map fun cs => (r.1.name, cs)

def keyword (word : String) (cs : List Char) : Option (List Char) :=
  (readWord cs).bind fun r => if r.1 = ⟨false, word.toList⟩ then blanks r.2 else none

/-- A character that is a token of its own. -/
def punct (x : Char) : List Char → Option (List Char)
  | [] => none
  | c :: cs => if c = x then blanks cs else none

/-- `op_chars` -/
def opChar (c : Char) : Bool := c ∈ "~!@#^&|`?+-*/%<>=".toList

/-- The operator `=`. More characters make another operator, unless a comment begins. -/
def equals : List Char → Option (List Char)
  | [] => none
  | c :: cs =>
      if c = '=' ∧ (cs.head?.all (fun d => !opChar d) ∨ cs.take 2 = ['-', '-'] ∨
        cs.take 2 = ['/', '*']) then blanks cs
      else none

/-- A parameter, `$` and its number. -/
def param : List Char → Option (Nat × List Char)
  | [] => none
  | c :: cs =>
      if c = '$' ∧ cs.takeWhile Char.isDigit ≠ [] ∧
        (cs.dropWhile Char.isDigit).head?.all (fun d => !identStart d) then
        (digitsValue (cs.takeWhile Char.isDigit)).bind fun n =>
          (blanks (cs.dropWhile Char.isDigit)).map fun cs => (n, cs)
      else none

/-! ## Statements -/

/-- One item or more; `fuel` bounds their number. -/
def sepBy {α : Type} (item : List Char → Option (α × List Char))
    (sep : List Char → Option (List Char)) : (fuel : Nat) → List Char → Option (List α × List Char)
  | 0, _ => none
  | fuel + 1, cs =>
      (item cs).bind fun r =>
        match sep r.2 with
        | some cs => (sepBy item sep fuel cs).map fun r' => (r.1 :: r'.1, r'.2)
        | none => some ([r.1], r.2)

/-- `qualified_name`, with one dot. -/
def relation (cs : List Char) : Option ((List Char × List Char) × List Char) := do
  let (schema, cs) ← ident false cs
  let cs ← punct '.' cs
  let (table, cs) ← ident true cs
  return ((schema, table), cs)

/-- `column = $n` -/
def assignment (cs : List Char) : Option ((List Char × Nat) × List Char) := do
  let (column, cs) ← ident false cs
  let cs ← equals cs
  let (n, cs) ← param cs
  return ((column, n), cs)

/-- A statement with its relation, and its columns with their parameters. -/
inductive Command
  | insert (rel : List Char × List Char) (columns : List (List Char)) (params : List Nat)
  | update (rel : List Char × List Char) (sets wheres : List (List Char × Nat))
  | delete (rel : List Char × List Char) (wheres : List (List Char × Nat))
  | truncate (rel : List Char × List Char)
deriving DecidableEq

/-- `INSERT`: `INTO rel (columns) VALUES (params) ON CONFLICT DO NOTHING` -/
def insertCommand (fuel : Nat) (cs : List Char) : Option (Command × List Char) := do
  let cs ← keyword "into" cs
  let (rel, cs) ← relation cs
  let cs ← punct '(' cs
  let (columns, cs) ← sepBy (ident false) (punct ',') fuel cs
  let cs ← punct ')' cs
  let cs ← keyword "values" cs
  let cs ← punct '(' cs
  let (params, cs) ← sepBy param (punct ',') fuel cs
  let cs ← punct ')' cs
  let cs ← keyword "on" cs
  let cs ← keyword "conflict" cs
  let cs ← keyword "do" cs
  let cs ← keyword "nothing" cs
  return (.insert rel columns params, cs)

/-- `UPDATE`: `rel SET assignments WHERE assignments` -/
def updateCommand (fuel : Nat) (cs : List Char) : Option (Command × List Char) := do
  let (rel, cs) ← relation cs
  let cs ← keyword "set" cs
  let (sets, cs) ← sepBy assignment (punct ',') fuel cs
  let cs ← keyword "where" cs
  let (wheres, cs) ← sepBy assignment (keyword "and") fuel cs
  return (.update rel sets wheres, cs)

/-- `DELETE`: `FROM rel WHERE assignments` -/
def deleteCommand (fuel : Nat) (cs : List Char) : Option (Command × List Char) := do
  let cs ← keyword "from" cs
  let (rel, cs) ← relation cs
  let cs ← keyword "where" cs
  let (wheres, cs) ← sepBy assignment (keyword "and") fuel cs
  return (.delete rel wheres, cs)

/-- `TRUNCATE`: `TABLE rel` -/
def truncateCommand (cs : List Char) : Option (Command × List Char) := do
  let cs ← keyword "table" cs
  let (rel, cs) ← relation cs
  return (.truncate rel, cs)

/-- What follows the first word of a statement. -/
def afterVerb (verb : Word) (fuel : Nat) (cs : List Char) : Option (Command × List Char) :=
  if verb = ⟨false, "insert".toList⟩ then insertCommand fuel cs
  else if verb = ⟨false, "update".toList⟩ then updateCommand fuel cs
  else if verb = ⟨false, "delete".toList⟩ then deleteCommand fuel cs
  else if verb = ⟨false, "truncate".toList⟩ then truncateCommand cs
  else none

/-- The statement, if nothing follows it. -/
def complete (r : Command × List Char) : Option Command := if r.2 = [] then some r.1 else none

/-- The one statement a text consists of, of these forms. -/
def command (text : List Char) : Option Command :=
  (blanks text).bind fun cs =>
    (readWord cs).bind fun r =>
      (blanks r.2).bind fun cs => (afterVerb r.1 text.length cs).bind complete

example : command "INSERT INTO public.\"T\" (\"a b\") VALUES ($1) ON CONFLICT DO NOTHING".toList
    = some (.insert ("public".toList, "T".toList) ["a b".toList] [1]) := by decide +kernel

/-! ## Reading in step -/

/-- Neither a blank nor a comment begins the text. -/
def Solid (cs : List Char) : Prop := ∀ c ∈ cs.head?, isSpace c = false ∧ c ≠ '-' ∧ c ≠ '/'

instance (cs : List Char) : Decidable (Solid cs) := Option.decidableForallMem cs.head?

/-- Where a token begins there is nothing to skip. Every reader skips the blanks behind its
token, so the next one always begins at a token. -/
theorem Solid.blanks {cs : List Char} (h : Solid cs) : blanks cs = some cs := by
  cases cs with
  | nil => rfl
  | cons c cs => exact blanks_cons (h c rfl) cs

/-- A word begins with neither a blank nor a comment. -/
theorem Bare.solid {raw : List Char} (h : Bare raw) (rest : List Char) : Solid (raw ++ rest) := by
  intro c hc
  have hstart := h.1
  cases raw with
  | nil => cases hstart
  | cons d raw =>
      obtain rfl : d = c := Option.some.inj hc
      refine ⟨isSpace_of_identCont (h.2 d (by simp)), ?_, ?_⟩
      · rintro rfl
        exact absurd hstart (by simp [identStart])
      · rintro rfl
        exact absurd hstart (by simp [identStart])

/-- Blanks that are written down, checked by evaluation. -/
theorem all_space {ws : List Char} (h : ws.all isSpace = true) : ∀ c ∈ ws, isSpace c = true :=
  List.all_eq_true.mp h

/-- Blanks in front of a token. -/
structure Gap (ws core : List Char) : Prop where
  space : ∀ c ∈ ws, isSpace c = true
  solid : Solid core

section

variable {ws core raw name rest : List Char} {label : Bool}

/-- A gap is skipped, up to the token behind it. -/
theorem Gap.blanks (h : Gap ws core) : blanks (ws ++ core) = some core := by
  rw [blanks_append h.space, h.solid.blanks]

/-- What may follow a word without quotes. -/
def EndsWord (rest : List Char) : Prop := ∀ d ∈ rest.head?, identCont d = false ∧ d ≠ '&'

instance (rest : List Char) : Decidable (EndsWord rest) := Option.decidableForallMem rest.head?

/-- A name between quotes is read as it is, cut at 63 bytes. That it holds no quote is asked for
here; what happens otherwise is the subject of `Lib.SqlNames`. -/
theorem ident_quoted (hne : name ≠ []) (hname : '"' ∉ name) (hgap : Gap ws core)
    (hrest : (ws ++ core).head? ≠ some '"') :
    ident label ('"' :: (name ++ '"' :: (ws ++ core))) = some (clip 63 name, core) := by
  rw [ident, readWord_quoted hne hname hrest, Option.bind_some]
  simp [hgap.blanks]

/-- A name without quotes is folded to lower case, and it must be no keyword unless a label may
be one. -/
theorem ident_bare (h : Bare raw) (hrest : EndsWord (ws ++ core)) (hgap : Gap ws core)
    (hkeyword : label = false →
      String.ofList (clip 63 (raw.map Char.toLower)) ∉ notColId) :
    ident label (raw ++ (ws ++ core)) = some (clip 63 (raw.map Char.toLower), core) := by
  rw [ident, readWord_bare h hrest, Option.bind_some, if_neg fun h => hkeyword h.1 h.2.2,
    hgap.blanks]
  rfl

/-- A keyword is a word like others, and is known by its lower case. -/
theorem keyword_bare {word : String} (h : Bare raw) (hrest : EndsWord rest)
    (hword : clip 63 (raw.map Char.toLower) = word.toList) :
    keyword word (raw ++ rest) = blanks rest := by
  rw [keyword, readWord_bare h hrest, Option.bind_some, if_pos (by rw [hword])]

end

/-! ## Which statement it is -/

section

variable {cs raw : List Char}

/-- One blank more in front makes no difference. -/
theorem blanks_blank (cs : List Char) : blanks (' ' :: cs) = blanks cs := by
  simp [blanks, skip, isSpace]

/-- A blank ends a word. -/
theorem endsWord_blank (cs : List Char) : EndsWord (' ' :: cs) := by
  intro d hd
  obtain rfl : ' ' = d := Option.some.inj hd
  decide

/-- A keyword with a blank behind it, the way the texts have it. -/
theorem keyword_blank {word : String} (h : Bare raw)
    (hword : clip 63 (raw.map Char.toLower) = word.toList) (cs : List Char) :
    keyword word (raw ++ ' ' :: cs) = blanks cs := by
  rw [keyword_bare h (endsWord_blank cs) hword, blanks_blank]

/-- After the keyword the reader is behind the blanks that follow it. What is read next is
thereby placed in the text, which the lemmas on names ask for. -/
theorem blanks_of_keyword {word : String} {after r : List Char} (h : Bare raw)
    (hword : clip 63 (raw.map Char.toLower) = word.toList)
    (hcs : blanks (raw ++ ' ' :: after) = some cs) (hkeyword : keyword word cs = some r) :
    blanks after = some r := by
  rw [(h.solid _).blanks, Option.some.injEq] at hcs
  rwa [← hcs, keyword_blank h hword] at hkeyword

/-- A text whose first word is a verb, with blanks in front. -/
theorem command_verb {ws : List Char} (hws : ∀ c ∈ ws, isSpace c = true) (h : Bare raw)
    (cs : List Char) :
    command (ws ++ (raw ++ ' ' :: cs)) = (blanks cs).bind fun r =>
      (afterVerb ⟨false, clip 63 (raw.map Char.toLower)⟩ (ws ++ (raw ++ ' ' :: cs)).length r).bind
        complete := by
  have hgap : Gap ws (raw ++ ' ' :: cs) := ⟨hws, h.solid _⟩
  rw [command, hgap.blanks, Option.bind_some, readWord_bare h (endsWord_blank cs),
    Option.bind_some, blanks_blank]

section

variable {ws : List Char}

/-- **The verb decides which statement is read.** The fuel is the length of the whole text,
whichever part of it a reader is given. -/
theorem command_insert (hws : ∀ c ∈ ws, isSpace c = true) (cs : List Char) :
    command (ws ++ ("INSERT".toList ++ ' ' :: cs)) = (blanks cs).bind fun r =>
      (insertCommand (ws ++ ("INSERT".toList ++ ' ' :: cs)).length r).bind complete := by
  have hverb : clip 63 ("INSERT".toList.map Char.toLower) = "insert".toList := by decide
  rw [command_verb hws (by decide), hverb]
  rfl

/-- The same for an update, -/
theorem command_update (hws : ∀ c ∈ ws, isSpace c = true) (cs : List Char) :
    command (ws ++ ("UPDATE".toList ++ ' ' :: cs)) = (blanks cs).bind fun r =>
      (updateCommand (ws ++ ("UPDATE".toList ++ ' ' :: cs)).length r).bind complete := by
  have hverb : clip 63 ("UPDATE".toList.map Char.toLower) = "update".toList := by decide
  rw [command_verb hws (by decide), hverb]
  rfl

/-- for a deletion -/
theorem command_delete (hws : ∀ c ∈ ws, isSpace c = true) (cs : List Char) :
    command (ws ++ ("DELETE".toList ++ ' ' :: cs)) = (blanks cs).bind fun r =>
      (deleteCommand (ws ++ ("DELETE".toList ++ ' ' :: cs)).length r).bind complete := by
  have hverb : clip 63 ("DELETE".toList.map Char.toLower) = "delete".toList := by decide
  rw [command_verb hws (by decide), hverb]
  rfl

/-- and for a truncation, which has no lists and needs no fuel. -/
theorem command_truncate (hws : ∀ c ∈ ws, isSpace c = true) (cs : List Char) :
    command (ws ++ ("TRUNCATE".toList ++ ' ' :: cs)) = (blanks cs).bind fun r =>
      (truncateCommand r).bind complete := by
  have hverb : clip 63 ("TRUNCATE".toList.map Char.toLower) = "truncate".toList := by decide
  rw [command_verb hws (by decide), hverb]
  rfl

end

/-- Nothing may be left behind the statement. This is what makes a reader that is late fail in
the end, however much it has read. -/
theorem complete_eq_some {r : Command × List Char} {c : Command} :
    complete r = some c ↔ r = (c, []) := by
  obtain ⟨c', cs⟩ := r
  simp only [complete, Option.ite_none_right_eq_some, Option.some.injEq, Prod.mk.injEq]
  exact and_comm

end

end WalStream.Lib.Sql
