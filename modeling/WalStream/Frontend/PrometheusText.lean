/-
The Prometheus text exposition format, and what `parsePrometheusText` reads back of it.

A line of a sample is its name, its labels between braces, a space and its value; the other
lines are blank or comments. In the value of a label a backslash, a double quote and a new
line are escaped. The parser knows no escapes: it ends a label value at the first double
quote, escaped or not, and it ends the label block at the first closing brace, in a value
or not. A label called `__proto__` is lost to the object the labels are kept in, and a
number with no digit behind its point is not matched. Everything else is read as written.
-/
import WalStream.Frontend.Prometheus
import WalStream.Lib.Joined

set_option autoImplicit false

namespace WalStream.Frontend

open Lib

/-! ## The format

Samples in the text format of Prometheus, with the choices that the format leaves to the writer:
the spelling of a number, blank lines, comments. The parser is that of the dashboard, from
`Frontend.Prometheus`. -/

/-- `[a-zA-Z_:][a-zA-Z0-9_:]*`. -/
def metricName : List Char → Bool
  | [] => false
  | c :: cs => isNameStart c && cs.all isNameChar

/-- `[a-zA-Z_][a-zA-Z0-9_]*`. -/
def labelName : List Char → Bool
  | [] => false
  | c :: cs => (c.isAlpha || c = '_') && cs.all isWord

/-- A value with its spelling. -/
inductive SampleValue
  | nan
  | inf (negative : Bool)
  | numeral (n : Numeral)
deriving DecidableEq

def SampleValue.text : SampleValue → List Char
  | nan => ['N', 'a', 'N']
  | inf false => ['+', 'I', 'n', 'f']
  | inf true => ['-', 'I', 'n', 'f']
  | numeral n => n.text

def SampleValue.value : SampleValue → Number
  | nan => .nan
  | inf negative => .inf negative
  | numeral n => .finite n.value

/-- A sample as the exposition format has it, in the spelling in which its value is written. -/
structure Sample where
  name : String
  labels : Dict String String
  value : SampleValue
  legal_name : metricName name.toList = true
  legal_labels : (labels.keys.all fun key => labelName key.toList) = true
deriving DecidableEq

def escapeChar (c : Char) : List Char :=
  if c = '\\' then ['\\', '\\']
  else if c = '"' then ['\\', '"']
  else if c = '\n' then ['\\', 'n']
  else [c]

def escape (cs : List Char) : List Char := cs.flatMap escapeChar

/-- `key="value"`. -/
def labelText (entry : String × String) : List Char :=
  entry.1.toList ++ '=' :: '"' :: (escape entry.2.toList ++ ['"'])

/-- The labels, separated by commas. -/
def innerText (entries : List (String × String)) : List Char :=
  [','].intercalate (entries.map labelText)

/-- The label block; without labels there is none. -/
def blockText (entries : List (String × String)) : List Char :=
  if entries = [] then [] else '{' :: (innerText entries ++ ['}'])

def Sample.line (s : Sample) : List Char :=
  s.name.toList ++ (blockText s.labels.entries ++ ' ' :: s.value.text)

/-- A line that is no sample: blank, or a comment. -/
structure Filler where
  line : List Char
  one_line : '\n' ∉ line
  blank_or_comment : trim line = [] ∨ ['#'].isPrefixOf (trim line) = true

/-- A line of an exposition: a sample's, or one that the parser is to pass over. -/
inductive Item
  | sample (s : Sample)
  | filler (f : Filler)

def Item.line : Item → List Char
  | sample s => s.line
  | filler f => f.line

def Item.sample? : Item → Option Sample
  | sample s => some s
  | filler _ => none

/-- The text of the items, a line each. -/
def exposition (items : List Item) : String :=
  String.ofList (items.flatMap fun item => item.line ++ ['\n'])

/-- Name, labels and value. -/
abbrev Reading : Type := String × Dict String String × Number

def Sample.reading (s : Sample) : Reading := (s.name, s.labels, s.value.value)

def ParsedMetric.reading (m : ParsedMetric) : Reading := (m.name, m.labels, m.value)

/-- The characters that a label value is not read back with. -/
def isSpecial (c : Char) : Bool := c = '\\' || c = '"' || c = '\n' || c = '}'

/-- The number has no digit behind its point. -/
def SampleValue.bare : SampleValue → Bool
  | numeral n => decide (n.fraction = some [])
  | _ => false

/-- No label is called `__proto__`, no label value has a special character, and the value
is not bare. -/
def Sample.Plain (s : Sample) : Prop :=
  (∀ entry ∈ s.labels.entries,
    entry.1 ≠ "__proto__" ∧ entry.2.toList.any isSpecial = false) ∧ s.value.bare = false

instance (s : Sample) : Decidable s.Plain :=
  inferInstanceAs (Decidable ((∀ entry ∈ s.labels.entries,
    entry.1 ≠ "__proto__" ∧ entry.2.toList.any isSpecial = false) ∧ s.value.bare = false))

/-! ## Values

The parser first finds the extent of a value with an expression and then reads it with
`parseFloat`. A spelling is lost if the expression does not match it, even where the number
could be read. -/

/-- The exponent of a literal is matched. -/
theorem exponentMatch_text (o : Option Exponent) : exponentMatch (exponentText o) = true := by
  cases o with
  | none => rfl
  | some e =>
      have hnumeric := e.numeric_digits
      have hne : e.digits.isEmpty = false := List.isEmpty_eq_false_iff.mpr e.ne_nil
      simp [exponentText, Exponent.text, exponentMatch, e.mark_eq, takeSign_signText _ hnumeric,
        hne, e.isDigit]

/-- Behind the digits of a number comes its exponent or nothing, and not a second point. -/
theorem notPoint_exponentText (o : Option Exponent) : (exponentText o).head? ≠ some '.' := by
  cases o with
  | none => simp [exponentText]
  | some e =>
      rcases e.mark_eq with h | h
      · simp [exponentText, Exponent.text, h]
      · simp [exponentText, Exponent.text, h]

/-- A literal is matched unless it is bare. -/
theorem numberMatch_text (n : Numeral) :
    numberMatch n.text = !decide (n.fraction = some []) := by
  have hstops := stops_exponentText n.exponent
  have hmatch := exponentMatch_text n.exponent
  obtain ⟨hwhole, hrest⟩ := whole_unsigned n
  unfold numberMatch
  rw [Numeral.text, takeSign_signText _ n.numeric_unsigned]
  simp only [hwhole, hrest]
  cases hfraction : n.fraction with
  | none =>
      have hne : n.whole ≠ [] := by simpa [hfraction] using n.ne_nil
      have hpoint : ∀ rest, exponentText n.exponent ≠ '.' :: rest := by
        intro rest heq
        have hhead := notPoint_exponentText n.exponent
        rw [heq] at hhead
        exact hhead rfl
      -- the match takes its second branch by `hpoint`
      simp only [fractionText, List.nil_append]
      simp [hmatch, hne]
  | some ds =>
      have hds : ∀ c ∈ ds, c.isDigit = true := by
        intro c hc
        exact n.mem_fraction (by rw [hfraction]; exact hc)
      simp only [fractionText, List.cons_append, takeWhile_front hds hstops,
        dropWhile_front hds hstops, hmatch, Bool.and_true, Option.some.injEq]
      cases ds with
      | nil => rfl
      | cons d ds => simp

/-- A text with a character that numbers do not have is no number. -/
theorem ne_of_mem_text {n : Numeral} {c : Char} {cs : List Char} (h : c ∈ cs)
    (hc : isNumeralChar c = false) : n.text ≠ cs := by
  rintro rfl
  rw [isNumeralChar_of_mem_text h] at hc
  cases hc

/-- The value of a sample is read as it is written, in each of its spellings: a number, an
infinity with or without a sign, and `NaN`. -/
theorem parseValue_text (v : SampleValue) : parseValue v.text = v.value := by
  match v with
  | .nan => rfl
  | .inf false => rfl
  | .inf true => rfl
  | .numeral n =>
      have hN : n.text ≠ ['N', 'a', 'N'] := ne_of_mem_text (List.mem_cons_self ..) rfl
      have hI : ∀ {cs : List Char}, 'n' ∈ cs → n.text ≠ cs := fun h => ne_of_mem_text h rfl
      have hplus : ¬ (n.text = ['+', 'I', 'n', 'f'] ∨ n.text = ['I', 'n', 'f']) :=
        not_or.mpr ⟨hI (by simp), hI (by simp)⟩
      change parseValue n.text = .finite n.value
      unfold parseValue
      rw [if_neg hN, if_neg hplus, if_neg (hI (by simp)), parseFloat_text]

/-- The expression matches it, too, unless the number is bare. A value that is read but not
matched loses the whole line. -/
theorem valueMatch_text (v : SampleValue) : valueMatch v.text = !v.bare := by
  match v with
  | .nan => rfl
  | .inf false => rfl
  | .inf true => rfl
  | .numeral n =>
      have hN : n.text ≠ ['N', 'a', 'N'] := ne_of_mem_text (List.mem_cons_self ..) rfl
      have hI : (takeSign n.text).2 ≠ ['I', 'n', 'f'] := by
        intro heq
        obtain ⟨c, rest, htext, hc⟩ := n.numeric_unsigned
        rw [Numeral.text, takeSign_signText _ n.numeric_unsigned, htext] at heq
        obtain rfl : c = 'I' := (List.cons.inj heq).1
        simp [Char.isDigit] at hc
      change valueMatch n.text = !decide (n.fraction = some [])
      unfold valueMatch
      rw [numberMatch_text, decide_eq_false hN, decide_eq_false hI, Bool.or_false, Bool.or_false]

/-! ## What cannot be in a value

The label block is matched up to its first closing brace, and a value must follow. No value has
a brace in it, so a line with a brace inside a label is not matched at all. -/

/-- A sign is no closing brace. -/
theorem mem_takeSign {cs : List Char} (h : '}' ∈ cs) : '}' ∈ (takeSign cs).2 := by
  unfold takeSign
  split
  · simpa using h
  · simpa using h
  · exact h

/-- An exponent has no closing brace, -/
theorem exponentMatch_eq_false {cs : List Char} (h : '}' ∈ cs) : exponentMatch cs = false := by
  cases cs with
  | nil => cases h
  | cons c cs =>
      by_cases hmark : c = 'e' ∨ c = 'E'
      · have hne : '}' ≠ c := by
          rintro rfl
          simp at hmark
        have hmem : '}' ∈ cs := (List.mem_cons.mp h).resolve_left hne
        have hall : (takeSign cs).2.all Char.isDigit = false := by
          rw [List.all_eq_false]
          exact ⟨'}', mem_takeSign hmem, by decide⟩
        simp [exponentMatch, hall]
      · simp [exponentMatch, hmark]

/-- nor has a number. So what is matched as a value never begins in the labels, which is what
decides where the label block ends. -/
theorem numberMatch_eq_false {cs : List Char} (h : '}' ∈ cs) : numberMatch cs = false := by
  have hmem := mem_dropWhile (p := Char.isDigit) (by decide) (mem_takeSign h)
  unfold numberMatch
  dsimp only
  split
  · rename_i rest heq
    rw [heq] at hmem
    have hrest : '}' ∈ rest := by simpa using hmem
    rw [exponentMatch_eq_false (mem_dropWhile (by decide) hrest), Bool.and_false]
  · rw [exponentMatch_eq_false hmem, Bool.and_false]

/-- No match has a closing brace. -/
theorem valueMatch_eq_false {cs : List Char} (h : '}' ∈ cs) : valueMatch cs = false := by
  have hN : cs ≠ ['N', 'a', 'N'] := by
    rintro rfl
    simp at h
  have hI : (takeSign cs).2 ≠ ['I', 'n', 'f'] := by
    intro heq
    have hmem := mem_takeSign h
    rw [heq] at hmem
    simp at hmem
  unfold valueMatch
  rw [numberMatch_eq_false h, decide_eq_false hN, decide_eq_false hI]
  rfl

/-! ## Escaping

The parser does not undo escapes. A text is read back if it has none, and the length tells these
texts from the others. -/

@[simp] theorem escape_nil : escape [] = [] := rfl

@[simp] theorem escape_cons (c : Char) (cs : List Char) :
    escape (c :: cs) = escapeChar c ++ escape cs := rfl

/-- A character that is neither a backslash nor escaped is in the escaped text as it is in
the text. -/
theorem mem_escape_iff {d : Char} {cs : List Char} (hback : d ≠ '\\') (hn : d ≠ 'n')
    (hnew : d ≠ '\n') : d ∈ escape cs ↔ d ∈ cs := by
  have hchar : ∀ c, d ∈ escapeChar c ↔ d = c := by
    intro c
    unfold escapeChar
    split
    · rename_i h
      simp [h, hback]
    · split
      · rename_i h
        simp [h, hback]
      · split
        · rename_i h
          simp [h, hback, hn, hnew]
        · simp
  unfold escape
  rw [List.mem_flatMap]
  constructor
  · rintro ⟨c, hc, hd⟩
    rwa [(hchar c).mp hd]
  · intro hd
    exact ⟨d, hd, (hchar d).mpr rfl⟩

/-- No new line is left. -/
theorem newline_notMem_escape (cs : List Char) : '\n' ∉ escape cs := by
  unfold escape
  rw [List.mem_flatMap]
  rintro ⟨c, -, hc⟩
  unfold escapeChar at hc
  split at hc
  · simp at hc
  · split at hc
    · simp at hc
    · split at hc
      · simp at hc
      · rename_i h
        exact h (List.mem_singleton.mp hc).symm

/-- Escaping does not shorten a text, so a text that it leaves equally long it leaves as it is. -/
theorem length_le_length_escape (cs : List Char) : cs.length ≤ (escape cs).length := by
  induction cs with
  | nil => exact Nat.le_refl 0
  | cons c cs ih =>
      have hpos : 1 ≤ (escapeChar c).length := by
        unfold escapeChar
        split
        · simp
        · split
          · simp
          · split <;> simp
      rw [escape_cons, List.length_append, List.length_cons]
      omega

/-- Escaping leaves exactly the texts without a backslash, a quote and a new line as they
are. -/
theorem escape_eq_self_iff (cs : List Char) :
    escape cs = cs ↔ ∀ c ∈ cs, c ≠ '\\' ∧ c ≠ '"' ∧ c ≠ '\n' := by
  induction cs with
  | nil => simp
  | cons c cs ih =>
      rw [List.forall_mem_cons, ← ih, escape_cons]
      by_cases hc : c ≠ '\\' ∧ c ≠ '"' ∧ c ≠ '\n'
      · have hone : escapeChar c = [c] := by simp [escapeChar, hc]
        simp [hone, hc]
      · -- two characters for one
        have htwo : (escapeChar c).length = 2 := by
          unfold escapeChar
          split
          · rfl
          · split
            · rfl
            · split
              · rfl
              · rename_i h₁ h₂ h₃
                exact absurd ⟨h₁, h₂, h₃⟩ hc
        constructor
        · intro heq
          have hlen := congrArg List.length heq
          have hle := length_le_length_escape cs
          rw [List.length_append, List.length_cons, htwo] at hlen
          omega
        · intro h
          exact absurd h.1 hc

/-! ## The label expression

The expression that finds labels is run over the block as an automaton. Names are words and
values have no quote inside, so it is in step with the writer as long as nothing is escaped. -/

/-- A quoted value without a quote is read up to its closing quote. -/
theorem labelMatches_value (w v cs rest : List Char) (h : '"' ∉ cs) :
    labelMatches (.value w v) (cs ++ '"' :: rest) =
      (w, v ++ cs) :: labelMatches .outside rest := by
  induction cs generalizing v with
  | nil => simp [labelMatches, Scan.step]
  | cons c cs ih =>
      rw [List.mem_cons, not_or] at h
      have hc : c ≠ '"' := fun heq => h.1 heq.symm
      rw [List.cons_append, labelMatches, Scan.step, if_neg hc]
      simpa using ih (v ++ [c]) h.2

/-- A word is read on, letter by letter. -/
theorem labelMatches_word (w cs rest : List Char) (h : ∀ c ∈ cs, isWord c = true) :
    labelMatches (.word w) (cs ++ rest) = labelMatches (.word (w ++ cs)) rest := by
  induction cs generalizing w with
  | nil => simp
  | cons c cs ih =>
      rw [List.forall_mem_cons] at h
      rw [List.cons_append, labelMatches, Scan.step, if_pos h.1]
      simpa using ih (w ++ [c]) h.2

/-- Outside a label everything that is no letter is passed over. -/
theorem labelMatches_outside {c : Char} (cs : List Char) (h : isWord c = false) :
    labelMatches .outside (c :: cs) = labelMatches .outside cs := by
  simp [labelMatches, Scan.step, h]

/-- A label name is a word. -/
theorem labelName_word {cs : List Char} (h : labelName cs = true) :
    cs ≠ [] ∧ ∀ c ∈ cs, isWord c = true := by
  cases cs with
  | nil => cases h
  | cons c cs =>
      simp only [labelName, Bool.and_eq_true, List.all_eq_true] at h
      have hc : isWord c = true := by
        rw [isWord, Char.isAlphanum]
        simp only [Bool.or_eq_true, decide_eq_true_eq] at h ⊢
        exact h.1.imp Or.inl id
      exact ⟨List.cons_ne_nil _ _, List.forall_mem_cons.mpr ⟨hc, h.2⟩⟩

/-- A label is matched if its value has no quote. -/
theorem labelMatches_labelText {entry : String × String} (rest : List Char)
    (hname : labelName entry.1.toList = true) (hquote : '"' ∉ escape entry.2.toList) :
    labelMatches .outside (labelText entry ++ rest) =
      (entry.1.toList, escape entry.2.toList) :: labelMatches .outside rest := by
  obtain ⟨key, value⟩ := entry
  dsimp only at hname hquote
  obtain ⟨hne, hword⟩ := labelName_word hname
  simp only [labelText, List.append_assoc, List.cons_append, List.nil_append]
  cases hkey : key.toList with
  | nil => exact absurd hkey hne
  | cons c cs =>
      rw [hkey, List.forall_mem_cons] at hword
      have heq : isWord '=' = false := by decide
      rw [List.cons_append, labelMatches, Scan.step, if_pos hword.1]
      simp only [Option.toList_none, List.nil_append]
      rw [labelMatches_word _ _ _ hword.2, labelMatches, Scan.step, if_neg (by simp [heq]),
        if_pos rfl]
      simp only [Option.toList_none, List.nil_append]
      rw [labelMatches, Scan.step, if_pos rfl]
      simp only [Option.toList_none, List.nil_append]
      rw [labelMatches_value _ _ _ _ hquote]
      rfl

/-- The matches in the labels of a block. -/
theorem labelMatches_innerText {entries : List (String × String)} (rest : List Char)
    (hname : ∀ entry ∈ entries, labelName entry.1.toList = true)
    (hquote : ∀ entry ∈ entries, '"' ∉ escape entry.2.toList) :
    labelMatches .outside (innerText entries ++ rest) =
      (entries.map fun entry => (entry.1.toList, escape entry.2.toList)) ++
        labelMatches .outside rest := by
  unfold innerText
  induction entries with
  | nil => rfl
  | cons entry entries ih =>
      rw [List.forall_mem_cons] at hname hquote
      have hfirst := fun rest => labelMatches_labelText rest hname.1 hquote.1
      cases entries with
      | nil => simpa using hfirst rest
      | cons next entries =>
          have hcomma : isWord ',' = false := by decide
          simp only [List.map_cons, List.intercalate_cons_cons, List.append_assoc] at ih ⊢
          rw [hfirst, List.singleton_append, labelMatches_outside _ hcomma,
            ih hname.2 hquote.2]
          rfl

/-- The value that is being read has no quote so far. -/
def Scan.Unquoted : Scan → Prop
  | value _ v => '"' ∉ v
  | _ => True

/-- Reading one character keeps the value without a quote, and a value that is finished has
none. -/
theorem unquoted_step {scan : Scan} (h : scan.Unquoted) (c : Char) :
    (scan.step c).1.Unquoted ∧ ∀ m ∈ (scan.step c).2, '"' ∉ m.2 := by
  cases scan with
  | outside => by_cases hword : isWord c = true <;> simp [Scan.step, Scan.Unquoted, hword]
  | word w =>
      by_cases hword : isWord c = true
      · simp [Scan.step, Scan.Unquoted, hword]
      · simp only [Scan.step, if_neg hword]
        by_cases hequals : c = '=' <;> simp [Scan.Unquoted, hequals]
  | equals w =>
      by_cases hquote : c = '"'
      · simp [Scan.step, Scan.Unquoted, hquote]
      · by_cases hword : isWord c = true <;> simp [Scan.step, Scan.Unquoted, hquote, hword]
  | value w v =>
      have hv : '"' ∉ v := h
      by_cases hquote : c = '"'
      · simp [Scan.step, Scan.Unquoted, hquote, hv]
      · have hne : '"' ≠ c := fun heq => hquote heq.symm
        simp [Scan.step, Scan.Unquoted, hquote, hv, hne]

/-- A value that is matched has no quote. -/
theorem quote_notMem_of_labelMatches {scan : Scan} {cs : List Char} {m : List Char × List Char}
    (hscan : scan.Unquoted) (h : m ∈ labelMatches scan cs) : '"' ∉ m.2 := by
  induction cs generalizing scan with
  | nil => cases h
  | cons c cs ih =>
      have hstep := unquoted_step hscan c
      rw [labelMatches] at h
      rcases List.mem_append.mp h with h | h
      · exact hstep.2 m (Option.mem_toList.mp h)
      · exact ih hstep.1 h

/-! ## The labels of a sample -/

variable {s : Sample}

/-- The labels of a sample have names the format allows. -/
theorem Sample.labelName_of_mem {entry : String × String} (h : entry ∈ s.labels.entries) :
    labelName entry.1.toList = true :=
  List.all_eq_true.mp s.legal_labels _ (List.mem_map_of_mem h)

/-- **The labels.** A block is read as the labels of the sample exactly when none of them is
called `__proto__` and escaping changes no value. -/
theorem parseLabels_block (s : Sample) :
    parseLabels ('{' :: (innerText s.labels.entries ++ ['}'])) = s.labels ↔
      ∀ entry ∈ s.labels.entries,
        entry.1 ≠ "__proto__" ∧ escape entry.2.toList = entry.2.toList := by
  have hbrace : isWord '{' = false := by decide
  have hclose : labelMatches .outside ['}'] = [] := rfl
  -- without quotes every label is matched
  have hread : (∀ entry ∈ s.labels.entries, entry.1 ≠ "__proto__" ∧ '"' ∉ entry.2.toList) →
      (parseLabels ('{' :: (innerText s.labels.entries ++ ['}']))).entries =
        s.labels.entries.map fun entry => (entry.1, String.ofList (escape entry.2.toList)) := by
    intro h
    have hquote : ∀ entry ∈ s.labels.entries, '"' ∉ escape entry.2.toList := by
      intro entry hentry
      rw [mem_escape_iff (by decide) (by decide) (by decide)]
      exact (h entry hentry).2
    unfold parseLabels
    rw [labelMatches_outside _ hbrace,
      labelMatches_innerText _ (fun _ => Sample.labelName_of_mem) hquote, hclose,
      List.append_nil, List.map_map]
    have hpairs : s.labels.entries.map ((fun m : List Char × List Char =>
        (String.ofList m.1, String.ofList m.2)) ∘
          fun entry => (entry.1.toList, escape entry.2.toList)) =
        s.labels.entries.map fun entry => (entry.1, String.ofList (escape entry.2.toList)) := by
      apply List.map_congr_left
      intro entry _
      simp
    rw [hpairs]
    apply entries_assignAll
    · intro pair hpair
      obtain ⟨entry, hentry, rfl⟩ := List.mem_map.mp hpair
      exact (h entry hentry).1
    · rw [List.map_map]
      exact s.labels.nodup
  constructor
  · intro heq
    have hfirst : ∀ entry ∈ s.labels.entries, entry.1 ≠ "__proto__" ∧ '"' ∉ entry.2.toList := by
      intro entry hentry
      rw [← heq] at hentry
      obtain ⟨hpair, hproto⟩ := mem_entries_assignAll hentry
      obtain ⟨m, hm, rfl⟩ := List.mem_map.mp hpair
      refine ⟨hproto, ?_⟩
      rw [String.toList_ofList]
      exact quote_notMem_of_labelMatches (show Scan.outside.Unquoted from trivial) hm
    have hentries := hread hfirst
    rw [heq] at hentries
    intro entry hentry
    refine ⟨(hfirst entry hentry).1, ?_⟩
    have hsame := List.map_eq_map_iff.mp ((List.map_id _).trans hentries) entry hentry
    have hvalue := congrArg (fun e : String × String => e.2.toList) hsame
    simpa using hvalue.symm
  · intro h
    apply Dict.ext
    have hfirst : ∀ entry ∈ s.labels.entries, entry.1 ≠ "__proto__" ∧ '"' ∉ entry.2.toList := by
      intro entry hentry
      obtain ⟨hproto, hescape⟩ := h entry hentry
      exact ⟨hproto, fun hq => ((escape_eq_self_iff _).mp hescape _ hq).2.1 rfl⟩
    rw [hread hfirst]
    conv_rhs => rw [← List.map_id s.labels.entries]
    apply List.map_congr_left
    intro entry hentry
    rw [(h entry hentry).2, String.ofList_toList]
    rfl

/-! ## A line

How the line of a sample falls into name, block and value, and what can be in the way: a brace
within a label. -/

/-- What the loop reads of a line. -/
def lineReading (line : List Char) : Option Reading :=
  let trimmed := trim line
  if trimmed = [] ∨ ['#'].isPrefixOf trimmed = true then none
  else
    (metricMatch trimmed).map fun m =>
      (String.ofList m.1, parseLabels m.2.1, parseValue m.2.2)

/-- A line that neither begins nor ends with white space is not trimmed. -/
theorem trim_eq_self {cs : List Char} (hfirst : Stops isSpace cs)
    (hlast : Stops isSpace cs.reverse) : trim cs = cs := by
  rw [trim, dropWhile_of_stops hfirst, dropWhile_of_stops hlast, List.reverse_reverse]

/-- A value is made of characters that are no white space. -/
theorem isSpace_of_mem_text {v : SampleValue} {c : Char} (h : c ∈ v.text) :
    isSpace c = false := by
  match v, h with
  | .nan, h =>
      simp only [SampleValue.text, List.mem_cons, List.not_mem_nil, or_false] at h
      rcases h with rfl | rfl | rfl <;> rfl
  | .inf false, h =>
      simp only [SampleValue.text, List.mem_cons, List.not_mem_nil, or_false] at h
      rcases h with rfl | rfl | rfl | rfl <;> rfl
  | .inf true, h =>
      simp only [SampleValue.text, List.mem_cons, List.not_mem_nil, or_false] at h
      rcases h with rfl | rfl | rfl | rfl <;> rfl
  | .numeral n, h => exact isSpace_of_isNumeralChar (isNumeralChar_of_mem_text h)

/-- No value is written with nothing. -/
theorem text_ne_nil (v : SampleValue) : v.text ≠ [] := by
  match v with
  | .nan => exact List.cons_ne_nil _ _
  | .inf false => exact List.cons_ne_nil _ _
  | .inf true => exact List.cons_ne_nil _ _
  | .numeral n =>
      obtain ⟨c, rest, htext, -⟩ := n.numeric_unsigned
      change n.text ≠ []
      rw [Numeral.text, htext]
      exact List.append_ne_nil_of_right_ne_nil _ (List.cons_ne_nil _ _)

/-- A metric's name has a first character, and it is no digit. -/
theorem metricName_cons {cs : List Char} (h : metricName cs = true) :
    ∃ c ds, cs = c :: ds ∧ isNameStart c = true ∧ ∀ d ∈ ds, isNameChar d = true := by
  cases cs with
  | nil => cases h
  | cons c ds =>
      simp only [metricName, Bool.and_eq_true, List.all_eq_true] at h
      exact ⟨c, ds, rfl, h⟩

/-- A name is matched up to its end. -/
theorem nameMatch_append {name rest : List Char} (hname : metricName name = true)
    (hrest : Stops isNameChar rest) : nameMatch (name ++ rest) = (name, rest) := by
  obtain ⟨c, ds, rfl, hc, hds⟩ := metricName_cons hname
  rw [List.cons_append, nameMatch, if_pos hc, takeWhile_front hds hrest,
    dropWhile_front hds hrest]

/-- The first character of a name begins neither white space nor a comment. -/
theorem isNameStart_spec {c : Char} (h : isNameStart c = true) :
    isSpace c = false ∧ c ≠ '#' := by
  by_cases halpha : c.isAlpha = true
  · have hbounds : (65 ≤ c.toNat ∧ c.toNat ≤ 90) ∨ (97 ≤ c.toNat ∧ c.toNat ≤ 122) := by
      rcases Bool.or_eq_true_iff.mp halpha with hupper | hlower
      · obtain ⟨hge, hle⟩ := of_decide_eq_true hupper
        exact Or.inl ⟨UInt32.le_iff_toNat_le.mp hge, UInt32.le_iff_toNat_le.mp hle⟩
      · obtain ⟨hge, hle⟩ := Bool.and_eq_true_iff.mp hlower
        exact Or.inr ⟨UInt32.le_iff_toNat_le.mp (of_decide_eq_true hge),
          UInt32.le_iff_toNat_le.mp (of_decide_eq_true hle)⟩
    constructor
    · simp only [isSpace, List.contains_eq_mem, decide_eq_false_iff_not, List.mem_cons,
        List.not_mem_nil, or_false]
      omega
    · rintro rfl
      exact absurd halpha (by decide)
  · simp only [isNameStart, halpha, Bool.false_or, Bool.or_eq_true, decide_eq_true_eq] at h
    rcases h with rfl | rfl
    all_goals decide

/-- What follows the name does not go on with it. -/
theorem stops_blockText (entries : List (String × String)) (cs : List Char) :
    Stops isNameChar (blockText entries ++ ' ' :: cs) := by
  have hspace : isNameChar ' ' = false := by decide
  have hbrace : isNameChar '{' = false := by decide
  unfold blockText Stops
  split
  · simp [hspace]
  · simp [hbrace]

/-- A block without a closing brace inside is matched. -/
theorem blockMatch_blockText {entries : List (String × String)} (cs : List Char)
    (h : '}' ∉ innerText entries) :
    blockMatch (blockText entries ++ ' ' :: cs) = some (blockText entries, ' ' :: cs) := by
  unfold blockText
  split
  · rfl
  · simp only [List.cons_append, List.append_assoc, List.nil_append, blockMatch,
      takeWhile_until _ h, dropWhile_until _ h]

/-- A closing brace inside ends the block, and the last one is left over. -/
theorem blockMatch_brace {entries : List (String × String)} (cs : List Char)
    (h : '}' ∈ innerText entries) :
    ∃ labelsStr rest, blockMatch (blockText entries ++ ' ' :: cs) = some (labelsStr, rest) ∧
      '}' ∈ rest.dropWhile isSpace := by
  have hne : entries ≠ [] := by
    rintro rfl
    cases h
  obtain ⟨front, back, hinner, hfront⟩ := List.eq_append_cons_of_mem h
  refine ⟨'{' :: front ++ ['}'], back ++ '}' :: ' ' :: cs, ?_, mem_dropWhile (by decide) (by simp)⟩
  rw [blockText, if_neg hne, hinner]
  simp only [List.cons_append, List.append_assoc, List.nil_append, blockMatch,
    takeWhile_until _ hfront, dropWhile_until _ hfront]

/-- The labels are what a closing brace can come from. -/
theorem brace_mem_innerText_iff {entries : List (String × String)}
    (hname : ∀ entry ∈ entries, labelName entry.1.toList = true) :
    '}' ∈ innerText entries ↔ ∃ entry ∈ entries, '}' ∈ entry.2.toList := by
  have hlabel : ∀ entry ∈ entries, '}' ∈ labelText entry ↔ '}' ∈ entry.2.toList := by
    intro entry hentry
    have hkey : '}' ∉ entry.1.toList := by
      intro hmem
      have hword := (labelName_word (hname entry hentry)).2 _ hmem
      revert hword
      decide
    simp [labelText, hkey, mem_escape_iff]
  rw [innerText, mem_joined_iff (by decide)]
  constructor
  · rintro ⟨part, hpart, hmem⟩
    obtain ⟨entry, hentry, rfl⟩ := List.mem_map.mp hpart
    exact ⟨entry, hentry, (hlabel entry hentry).mp hmem⟩
  · rintro ⟨entry, hentry, hmem⟩
    exact ⟨labelText entry, List.mem_map_of_mem hentry, (hlabel entry hentry).mpr hmem⟩

/-! ## A sample -/

/-- The line of a sample is not changed by `trim`, and begins neither a comment nor white
space. -/
theorem trim_line (s : Sample) :
    trim s.line = s.line ∧ s.line ≠ [] ∧ ['#'].isPrefixOf s.line = false := by
  obtain ⟨c, ds, hname, hc, -⟩ := metricName_cons s.legal_name
  obtain ⟨hspace, hhash⟩ := isNameStart_spec hc
  have hline : s.line = c :: (ds ++ (blockText s.labels.entries ++ ' ' :: s.value.text)) := by
    rw [Sample.line, hname, List.cons_append]
  obtain ⟨front, last, hlast⟩ :=
    (List.eq_nil_or_concat s.value.text).resolve_left (text_ne_nil s.value)
  refine ⟨?_, ?_, ?_⟩
  · apply trim_eq_self
    · rw [hline]
      simpa [Stops] using hspace
    · have hend : isSpace last = false :=
        isSpace_of_mem_text (v := s.value) (by rw [hlast]; simp)
      rw [Sample.line, hlast]
      simpa [Stops] using hend
  · rw [hline]
    exact List.cons_ne_nil _ _
  · rw [hline, List.isPrefixOf_cons_cons, beq_false_of_ne (Ne.symm hhash), Bool.false_and]

/-- The line of a sample whose labels have no closing brace is matched unless its value is
bare. -/
theorem metricMatch_line (s : Sample) (h : '}' ∉ innerText s.labels.entries) :
    metricMatch s.line =
      if s.value.bare = false then
        some (s.name.toList, blockText s.labels.entries, s.value.text)
      else none := by
  have hvalue : Stops isSpace s.value.text := by
    intro c hc
    exact isSpace_of_mem_text (List.mem_of_mem_head? hc)
  have hspace : isSpace ' ' = true := by decide
  unfold metricMatch
  rw [Sample.line, nameMatch_append s.legal_name (stops_blockText _ _)]
  simp only [Option.bind_eq_bind, blockMatch_blockText _ h, Option.bind_some,
    List.dropWhile_cons_of_pos hspace, dropWhile_of_stops hvalue,
    List.takeWhile_cons_of_pos hspace, valueMatch_text]
  simp

/-- With a closing brace in a label it is not matched. -/
theorem metricMatch_brace (s : Sample) (h : '}' ∈ innerText s.labels.entries) :
    metricMatch s.line = none := by
  obtain ⟨labelsStr, rest, hblock, hmem⟩ := blockMatch_brace s.value.text h
  unfold metricMatch
  rw [Sample.line, nameMatch_append s.legal_name (stops_blockText _ _)]
  simp only [Option.bind_eq_bind, hblock, Option.bind_some, valueMatch_eq_false hmem]
  simp

/-- The labels of a sample that is matched. -/
theorem parseLabels_blockText (s : Sample) :
    parseLabels (blockText s.labels.entries) = s.labels ↔
      ∀ entry ∈ s.labels.entries,
        entry.1 ≠ "__proto__" ∧ escape entry.2.toList = entry.2.toList := by
  by_cases hnil : s.labels.entries = []
  · have hempty : s.labels = Dict.empty := Dict.ext hnil
    rw [blockText, if_pos hnil, hempty]
    simp [parseLabels, labelMatches, assignAll]
  · rw [blockText, if_neg hnil, parseLabels_block]

/-- What makes a sample plain, taken apart by what each part is about: the labels as they are
read, the brace that ends the block, and the value. -/
theorem plain_iff (s : Sample) :
    s.Plain ↔
      (∀ entry ∈ s.labels.entries,
        entry.1 ≠ "__proto__" ∧ escape entry.2.toList = entry.2.toList) ∧
      '}' ∉ innerText s.labels.entries ∧ s.value.bare = false := by
  rw [brace_mem_innerText_iff fun _ => Sample.labelName_of_mem]
  have hspecial : ∀ cs : List Char,
      cs.any isSpecial = false ↔ escape cs = cs ∧ '}' ∉ cs := by
    intro cs
    rw [escape_eq_self_iff, List.any_eq_false]
    simp only [isSpecial, Bool.or_eq_true, decide_eq_true_eq, not_or]
    constructor
    · intro h
      exact ⟨fun c hc => ⟨(h c hc).1.1.1, (h c hc).1.1.2, (h c hc).1.2⟩,
        fun hbrace => (h _ hbrace).2 rfl⟩
    · rintro ⟨h, hbrace⟩ c hc
      refine ⟨⟨⟨(h c hc).1, (h c hc).2.1⟩, (h c hc).2.2⟩, ?_⟩
      rintro rfl
      exact hbrace hc
  unfold Sample.Plain
  simp only [hspecial, not_exists, not_and]
  constructor
  · rintro ⟨h, hbare⟩
    exact ⟨fun e he => ⟨(h e he).1, (h e he).2.1⟩, fun e he => (h e he).2.2, hbare⟩
  · rintro ⟨h, hbrace, hbare⟩
    exact ⟨fun e he => ⟨(h e he).1, (h e he).2, hbrace e he⟩, hbare⟩

/-- **A sample.** Its line is read as the sample exactly when it is plain. -/
theorem lineReading_line (s : Sample) : lineReading s.line = some s.reading ↔ s.Plain := by
  obtain ⟨htrim, hne, hcomment⟩ := trim_line s
  rw [plain_iff, lineReading, htrim, if_neg (by simp [hne, hcomment])]
  by_cases hbrace : '}' ∈ innerText s.labels.entries
  · simp [metricMatch_brace s hbrace, hbrace]
  · rw [metricMatch_line s hbrace]
    by_cases hbare : s.value.bare = false
    · rw [if_pos hbare, Option.map_some, Option.some.injEq, ← parseLabels_blockText]
      simp [Sample.reading, parseValue_text, hbrace, hbare]
    · simp [hbare]

/-! ## The text -/

/-- A line that is no sample is not read. -/
theorem lineReading_filler (f : Filler) : lineReading f.line = none :=
  if_pos f.blank_or_comment

/-- A line about a metric is a comment. -/
theorem begins_with_hash {ds cs : List Char} (h : ('#' :: ds).isPrefixOf cs = true) :
    ['#'].isPrefixOf cs = true := by
  cases cs with
  | nil => cases h
  | cons c cs =>
      rw [List.isPrefixOf_cons_cons, Bool.and_eq_true] at h ⊢
      exact ⟨h.1, rfl⟩

/-- One turn of the loop adds what is read of the line. -/
theorem reading_parseLine (p : Parse) (line : List Char) :
    (parseLine p line).metrics.map ParsedMetric.reading =
      p.metrics.map ParsedMetric.reading ++ (lineReading line).toList := by
  have hcomment : ['#'].isPrefixOf (trim line) = true → lineReading line = none :=
    fun h => if_pos (Or.inr h)
  simp only [parseLine]
  by_cases hnil : trim line = []
  · have hnone : lineReading line = none := if_pos (Or.inl hnil)
    simp [hnil, hnone]
  rw [if_neg hnil]
  by_cases hhelp : "# HELP ".toList.isPrefixOf (trim line) = true
  · rw [if_pos hhelp, hcomment (begins_with_hash hhelp), Option.toList_none, List.append_nil]
    split <;> rfl
  rw [if_neg hhelp]
  by_cases htype : "# TYPE ".toList.isPrefixOf (trim line) = true
  · rw [if_pos htype, hcomment (begins_with_hash htype), Option.toList_none, List.append_nil]
    split <;> rfl
  rw [if_neg htype]
  by_cases hhash : ['#'].isPrefixOf (trim line) = true
  · rw [if_pos hhash, hcomment hhash, Option.toList_none, List.append_nil]
  · have hread : lineReading line = (metricMatch (trim line)).map fun m =>
        (String.ofList m.1, parseLabels m.2.1, parseValue m.2.2) :=
      if_neg (not_or.mpr ⟨hnil, hhash⟩)
    rw [if_neg hhash, hread]
    cases metricMatch (trim line) with
    | none => simp
    | some m => simp [ParsedMetric.reading]

/-- The metrics are what is read of the lines. -/
theorem reading_parsePrometheusText (text : String) :
    (parsePrometheusText text).map ParsedMetric.reading =
      (text.toList.splitOn '\n').filterMap lineReading := by
  have hfold : ∀ (lines : List (List Char)) (p : Parse),
      (lines.foldl parseLine p).metrics.map ParsedMetric.reading =
        p.metrics.map ParsedMetric.reading ++ lines.filterMap lineReading := by
    intro lines
    induction lines with
    | nil => simp
    | cons line lines ih =>
        intro p
        rw [List.foldl_cons, ih, reading_parseLine, List.append_assoc]
        cases h : lineReading line with
        | none => simp [h]
        | some r => simp [h]
  exact hfold _ _

/-- No line of an item contains a new line. -/
theorem newline_notMem_line (item : Item) : '\n' ∉ item.line := by
  cases item with
  | filler f => exact f.one_line
  | sample s =>
      have hname : '\n' ∉ s.name.toList := by
        obtain ⟨c, ds, hname, hc, hds⟩ := metricName_cons s.legal_name
        rw [hname, List.mem_cons, not_or]
        refine ⟨?_, ?_⟩
        · rintro rfl
          cases hc
        · intro hmem
          cases hds _ hmem
      have hinner : '\n' ∉ innerText s.labels.entries := by
        rw [innerText, mem_joined_iff (by decide)]
        rintro ⟨part, hpart, hmem⟩
        obtain ⟨entry, hentry, rfl⟩ := List.mem_map.mp hpart
        have hkey : '\n' ∉ entry.1.toList := by
          intro hkey
          cases (labelName_word (Sample.labelName_of_mem hentry)).2 _ hkey
        simp [labelText, hkey, newline_notMem_escape] at hmem
      have hvalue : '\n' ∉ s.value.text := by
        intro hmem
        cases isSpace_of_mem_text hmem
      change '\n' ∉ s.line
      unfold Sample.line blockText
      split
      · simp [hname, hvalue]
      · simp [hname, hinner, hvalue]

/-- The lines of a text are those of its items, and an empty one. -/
theorem lines_exposition (items : List Item) :
    (exposition items).toList.splitOn '\n' = items.map Item.line ++ [[]] := by
  rw [exposition, String.toList_ofList]
  induction items with
  | nil => rfl
  | cons item items ih =>
      rw [List.flatMap_cons, List.append_assoc, List.singleton_append,
        List.splitOn_append_cons_self_of_not_mem (newline_notMem_line item), ih]
      rfl

/-- The samples of the items, in order. -/
def samples (items : List Item) : List Sample := items.filterMap Item.sample?

/-- The last line of a text is empty. -/
theorem lineReading_nil : lineReading [] = none := rfl

/-- A sample whose label value has a closing brace in it. -/
def braceSample : Sample :=
  { name := "walstream_events_replayed_total",
    labels := Dict.ofPairs [("table", "a\x7db"), ("operation", "INSERT")],
    value := .nan,
    legal_name := by decide +kernel,
    legal_labels := by decide +kernel }

/-- The line of a sample can be dropped. -/
theorem round_trip_fails :
    ¬ ∀ items : List Item, (parsePrometheusText (exposition items)).map ParsedMetric.reading =
      (samples items).map Sample.reading := by
  intro h
  have hnone : parsePrometheusText (exposition [.sample braceSample]) = [] := by decide +kernel
  have hread := h [.sample braceSample]
  rw [hnone] at hread
  cases hread

/-- **The round trip.** The text of a list of items is parsed as its samples, in order,
exactly when every sample is plain. -/
theorem round_trip_iff (items : List Item) :
    (parsePrometheusText (exposition items)).map ParsedMetric.reading =
        (samples items).map Sample.reading ↔
      ∀ s ∈ samples items, s.Plain := by
  have hread : (parsePrometheusText (exposition items)).map ParsedMetric.reading =
      items.filterMap fun item => lineReading item.line := by
    rw [reading_parsePrometheusText, lines_exposition, List.filterMap_append,
      List.filterMap_map, List.filterMap_cons_none lineReading_nil]
    exact List.append_nil _
  have hsamples : (samples items).map Sample.reading =
      items.filterMap fun item => item.sample?.map Sample.reading := List.map_filterMap
  rw [hread, hsamples, filterMap_eq_filterMap_iff]
  · constructor
    · intro h s hs
      obtain ⟨item, hitem, hsample⟩ := List.mem_filterMap.mp hs
      cases item with
      | filler f => cases hsample
      | sample s' =>
          obtain rfl := Option.some.inj hsample
          exact (lineReading_line s').mp (h _ hitem)
    · intro h item hitem
      cases item with
      | filler f => exact lineReading_filler f
      | sample s =>
          exact (lineReading_line s).mpr (h s (List.mem_filterMap.mpr ⟨_, hitem, rfl⟩))
  · intro item hitem hnone
    cases item with
    | filler f => exact lineReading_filler f
    | sample s => cases hnone

end WalStream.Frontend
