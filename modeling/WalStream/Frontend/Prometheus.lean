/-
`prometheus-parser.ts`: the text of a metrics endpoint as a list of metrics, and what the
dashboard computes from such a list.

A regular expression is the reader it amounts to. None of the ones here has a choice: a
name, a label block, a run of white space and a run of digits are each followed by a
character that cannot belong to them, so the longest match is the only one. The match of
the label expression that begins first begins where a word begins; a word that is not
followed by a quoted value up to the next quote matches at none of its characters.

Texts are lists of characters; a character that takes two code units is in none of the
classes that matter. A record is an object with the prototype of every object: assigning a
string or a number to its `__proto__` does nothing.
-/
import WalStream.Lib.Dict
import WalStream.Lib.Number
import Mathlib.Data.List.Induction

set_option autoImplicit false

namespace WalStream.Frontend

open Lib

structure ParsedMetric where
  name : String
  labels : Dict String String
  value : Number
  help : String
  type : String
deriving DecidableEq

/-- `record[key] = value`. -/
def assign {β : Type} (record : Dict String β) (key : String) (value : β) : Dict String β :=
  if key = "__proto__" then record else record.set key value

/-- The record after the assignments of a loop. -/
def assignAll {β : Type} (pairs : List (String × β)) : Dict String β :=
  pairs.foldl (fun record pair => assign record pair.1 pair.2) Dict.empty

/-! ## The expressions of a line -/

def trim (cs : List Char) : List Char :=
  ((cs.dropWhile isSpace).reverse.dropWhile isSpace).reverse

/-- `\S`. -/
def isNonSpace (c : Char) : Bool := !isSpace c

/-- `\w`. -/
def isWord (c : Char) : Bool := c.isAlphanum || c = '_'

/-- `[a-zA-Z_:]`. -/
def isNameStart (c : Char) : Bool := c.isAlpha || c = '_' || c = ':'

/-- `[a-zA-Z0-9_:]`. -/
def isNameChar (c : Char) : Bool := c.isAlphanum || c = '_' || c = ':'

/-- `.`, which is every character but a line terminator. -/
def isDot (c : Char) : Bool := !([0x0a, 0x0d, 0x2028, 0x2029].contains c.toNat)

/-- What follows the name in a line about a metric, `^# …… (\S+) (…)$`, if `accepts` does. -/
def aboutMatch (accepts : Char → Bool) (trimmed : List Char) : Option (List Char) :=
  let cs := trimmed.drop 7
  match cs.dropWhile isNonSpace with
  | ' ' :: text =>
      if cs.takeWhile isNonSpace ≠ [] ∧ text ≠ [] ∧ text.all accepts = true then some text
      else none
  | _ => none

/-- `match[2]` of `/^# HELP (\S+) (.+)$/`, for a line that begins so. -/
def helpMatch : List Char → Option (List Char) := aboutMatch isDot

/-- `match[2]` of `/^# TYPE (\S+) (\S+)$/`, for a line that begins so. -/
def typeMatch : List Char → Option (List Char) := aboutMatch isNonSpace

/-- `(?:[eE][+-]?\d+)?$`. -/
def exponentMatch : List Char → Bool
  | [] => true
  | c :: cs =>
      let digits := (takeSign cs).2
      decide (c = 'e' ∨ c = 'E') && (!digits.isEmpty && digits.all Char.isDigit)

/-- `^[+-]?\d*\.?\d+(?:[eE][+-]?\d+)?$`. -/
def numberMatch (cs : List Char) : Bool :=
  let cs := (takeSign cs).2
  match cs.dropWhile Char.isDigit with
  | '.' :: rest =>
      !(rest.takeWhile Char.isDigit).isEmpty && exponentMatch (rest.dropWhile Char.isDigit)
  | rest => !(cs.takeWhile Char.isDigit).isEmpty && exponentMatch rest

/-- `^(…|NaN|[+-]?Inf)$`. -/
def valueMatch (cs : List Char) : Bool :=
  numberMatch cs || cs = ['N', 'a', 'N'] || (takeSign cs).2 = ['I', 'n', 'f']

/-- `([a-zA-Z_:][a-zA-Z0-9_:]*)?` and what follows it. -/
def nameMatch : List Char → List Char × List Char
  | [] => ([], [])
  | c :: cs =>
      if isNameStart c then (c :: cs.takeWhile isNameChar, cs.dropWhile isNameChar)
      else ([], c :: cs)

/-- `({[^}]*})?` and what follows it. A brace that is not closed matches nothing, and
neither does it match the white space that must come next. -/
def blockMatch : List Char → Option (List Char × List Char)
  | '{' :: cs =>
      match cs.dropWhile (· ≠ '}') with
      | [] => none
      | brace :: rest => some ('{' :: cs.takeWhile (· ≠ '}') ++ [brace], rest)
  | cs => some ([], cs)

/-- `name`, `labelsStr` and `valueStr`. -/
def metricMatch (trimmed : List Char) : Option (List Char × List Char × List Char) := do
  let (name, cs) := nameMatch trimmed
  let (labelsStr, cs) ← blockMatch cs
  let valueStr := cs.dropWhile isSpace
  if cs.takeWhile isSpace ≠ [] ∧ valueMatch valueStr = true then
    some (name, labelsStr, valueStr)
  else none

/-- How far a match of `/(\w+)="([^"]*)"/` has come. -/
inductive Scan
  | outside
  | word (w : List Char)
  | equals (w : List Char)
  | value (w v : List Char)

/-- The next character, and the match it completes. -/
def Scan.step : Scan → Char → Scan × Option (List Char × List Char)
  | outside, c => (if isWord c then word [c] else outside, none)
  | word w, c =>
      if isWord c then (word (w ++ [c]), none)
      else (if c = '=' then equals w else outside, none)
  | equals w, c =>
      if c = '"' then (value w [], none)
      else (if isWord c then word [c] else outside, none)
  | value w v, c => if c = '"' then (outside, some (w, v)) else (value w (v ++ [c]), none)

/-- The matches that end in the text. -/
def labelMatches : Scan → List Char → List (List Char × List Char)
  | _, [] => []
  | scan, c :: cs =>
      let (next, found) := scan.step c
      found.toList ++ labelMatches next cs

/-! ## The parser -/

def parseLabels (labelsStr : List Char) : Dict String String :=
  assignAll ((labelMatches .outside labelsStr).map fun m =>
    (String.ofList m.1, String.ofList m.2))

def parseValue (valueStr : List Char) : Number :=
  if valueStr = ['N', 'a', 'N'] then .nan
  else if valueStr = ['+', 'I', 'n', 'f'] ∨ valueStr = ['I', 'n', 'f'] then .inf false
  else if valueStr = ['-', 'I', 'n', 'f'] then .inf true
  else parseFloat valueStr

/-- The variables of `parsePrometheusText`. -/
structure Parse where
  metrics : List ParsedMetric
  currentHelp : String
  currentType : String
deriving DecidableEq

/-- One turn of the loop. -/
def parseLine (s : Parse) (line : List Char) : Parse :=
  let trimmed := trim line
  if trimmed = [] then s
  else if "# HELP ".toList.isPrefixOf trimmed then
    match helpMatch trimmed with
    | some help => { s with currentHelp := String.ofList help }
    | none => s
  else if "# TYPE ".toList.isPrefixOf trimmed then
    match typeMatch trimmed with
    | some type => { s with currentType := String.ofList type }
    | none => s
  else if ['#'].isPrefixOf trimmed then s
  else
    match metricMatch trimmed with
    | some (name, labelsStr, valueStr) =>
        { s with
          metrics := s.metrics ++ [{
            name := String.ofList name,
            labels := parseLabels labelsStr,
            value := parseValue valueStr,
            help := s.currentHelp,
            type := s.currentType }] }
    | none => s

def parsePrometheusText (text : String) : List ParsedMetric :=
  ((text.toList.splitOn '\n').foldl parseLine
    { metrics := [], currentHelp := "", currentType := "" }).metrics

/-! ## Records -/

variable {β : Type} {pairs : List (String × β)} {entry : String × β}

/-- What an assignment sets, if anything. -/
theorem mem_entries_assign {record : Dict String β} {key : String} {value : β}
    (h : entry ∈ (assign record key value).entries) :
    (entry = (key, value) ∧ key ≠ "__proto__") ∨ entry ∈ record.entries := by
  unfold assign at h
  split at h
  · exact Or.inr h
  · rename_i hkey
    rcases (Dict.mem_entries_set _ _ _ _).mp h with rfl | ⟨hmem, -⟩
    · exact Or.inl ⟨rfl, hkey⟩
    · exact Or.inr hmem

/-- A record holds what was assigned, under other names than `__proto__`. -/
theorem mem_entries_assignAll (h : entry ∈ (assignAll pairs).entries) :
    entry ∈ pairs ∧ entry.1 ≠ "__proto__" := by
  have hall : ∀ (pairs : List (String × β)) (record : Dict String β),
      entry ∈ (pairs.foldl (fun record pair => assign record pair.1 pair.2) record).entries →
      (entry ∈ pairs ∧ entry.1 ≠ "__proto__") ∨ entry ∈ record.entries := by
    intro pairs
    induction pairs with
    | nil => exact fun record h => Or.inr h
    | cons pair pairs ih =>
        intro record h
        rcases ih _ h with ⟨hmem, hkey⟩ | h
        · exact Or.inl ⟨List.mem_cons_of_mem _ hmem, hkey⟩
        · rcases mem_entries_assign h with ⟨rfl, hkey⟩ | h
          · exact Or.inl ⟨List.mem_cons_self .., hkey⟩
          · exact Or.inr h
  rcases hall pairs Dict.empty h with h | h
  · exact h
  · cases h

/-- A record holds what was assigned last under a name. -/
theorem get?_assignAll (pairs : List (String × β)) {key : String} (hkey : key ≠ "__proto__") :
    (assignAll pairs).get? key =
      ((pairs.filter fun pair => pair.1 = key).getLast?).map Prod.snd := by
  induction pairs using List.reverseRecOn with
  | nil => rfl
  | append_singleton pairs pair ih =>
      rw [assignAll, List.foldl_append, List.filter_append]
      change (assign (assignAll pairs) pair.1 pair.2).get? key = _
      unfold assign
      by_cases heq : pair.1 = key
      · simp [heq, hkey]
      · split
        · simp [heq, ih]
        · rw [Dict.get?_set_of_ne _ _ (Ne.symm heq), ih]
          simp [heq]

/-- Names that are distinct and other than `__proto__` are all kept. -/
theorem entries_assignAll (hproto : ∀ pair ∈ pairs, pair.1 ≠ "__proto__")
    (hnodup : (pairs.map Prod.fst).Nodup) : (assignAll pairs).entries = pairs := by
  have hset : assignAll pairs = Dict.ofPairs pairs := by
    apply List.foldl_ext
    intro record pair hpair
    exact if_neg (hproto pair hpair)
  rw [hset, Dict.entries_ofPairs_of_nodup hnodup]

end WalStream.Frontend
