/-
Texts in which names stand between double quotes.

A program that puts names into a text as they are can be misread: a name with a quote in it
ends its identifier early, and what was meant as a name is read as something else. Then no
reading of the text gets back in step. Every name that is read takes at least the room of its
own letters, so a reader that is once too far in the text stays too far, and at the end
something is missing (`Late`).

Nothing here names a particular program.
-/
import WalStream.Lib.SqlStatement

set_option autoImplicit false

namespace WalStream.Lib.Sql

/-! ## Reading too far

A reader is late when it is past the place where it should be. It finds names further on, among
what was meant to be something else, and is late there as well; so it is late at the end. -/

/-- A reader that should be at `core` is past it. That it is still somewhere in `core` is part
of it: every reader of the grammar leaves an end of the text it was given. -/
def Late (core cs : List Char) : Prop := cs <:+ core ∧ cs.length < core.length

section

variable {text raw rest ws core cs name : List Char} {label : Bool}

/-- The first character of a last part that is longer than `back` is one of `front`. All that is
said here of where a reader is comes down to this: an end of a text is known by its length. -/
theorem mem_of_suffix_append {y : Char} {a front back : List Char} (h : y :: a <:+ front ++ back)
    (hlen : back.length ≤ a.length) : y ∈ front := by
  obtain ⟨pre, hpre⟩ := h
  have hpos : (pre ++ [y]).length ≤ front.length := by
    have := congrArg List.length hpre
    simp only [List.length_append, List.length_cons, List.length_nil] at this ⊢
    omega
  have hfirst : pre ++ [y] <+: front := by
    refine List.prefix_of_prefix_length_le ⟨a, ?_⟩ (List.prefix_append front back) hpos
    rw [← hpre]
    simp
  exact hfirst.subset (by simp)

/-- A token that ends behind where the gap begins ends behind the gap: no token ends with a
blank. -/
theorem late_of_short (hraw : ∃ front last, raw = front ++ [last] ∧ isSpace last = false)
    (htext : raw ++ rest <:+ text) (hcore : ws ++ core <:+ text)
    (hws : ∀ c ∈ ws, isSpace c = true) (hlt : rest.length < (ws ++ core).length)
    (hblanks : blanks rest = some cs) : Late core cs := by
  obtain ⟨front, last, rfl, hlast⟩ := hraw
  have hrest : last :: rest <:+ text := by
    refine List.IsSuffix.trans ⟨front, ?_⟩ htext
    simp
  have hsuffix : last :: rest <:+ ws ++ core :=
    List.suffix_of_suffix_length_le hrest hcore (Nat.succ_le_of_lt hlt)
  have hlen : rest.length < core.length := by
    by_contra hle
    -- the token's last character would be one of the gap
    have hmem := mem_of_suffix_append hsuffix (Nat.le_of_not_lt hle)
    rw [hws last hmem] at hlast
    cases hlast
  have hcs := blanks_suffix hblanks
  have hrestcore : rest <:+ core :=
    List.suffix_of_suffix_length_le ((List.suffix_cons last rest).trans hsuffix)
      (List.suffix_append ws core) (Nat.le_of_lt hlen)
  exact ⟨hcs.trans hrestcore, Nat.lt_of_le_of_lt hcs.length_le hlen⟩

/-- What a name is read from: the letters of the word, the blanks behind it, and that it is no
keyword unless it may be one. The name itself does not say whether it stood between quotes, and
`word` does. -/
theorem ident_spec (h : ident label cs = some (name, rest)) :
    ∃ word raw after, cs = raw ++ after ∧ WordText word raw ∧ word.name = name ∧
      blanks after = some rest ∧
      ¬ (label = false ∧ word.quoted = false ∧ String.ofList word.name ∈ notColId) := by
  simp only [ident, Option.bind_eq_some_iff, Option.ite_none_left_eq_some,
    Option.map_eq_some_iff, Prod.mk.injEq] at h
  obtain ⟨⟨word, after⟩, hword, hkeyword, rest', hblanks, hname, rfl⟩ := h
  obtain ⟨raw, hcs, htext⟩ := readWord_spec hword
  exact ⟨word, raw, after, hcs, htext, hname, hblanks, hkeyword⟩

/-- **A name in quotes**, put there as it is, is read as the name and leaves the reader in
step if there is no quote in it. If there is one and the name is read all the same, the reader
comes out too far. -/
theorem ident_slot (hgap : Gap ws core) (hhead : (ws ++ core).head? ≠ some '"')
    (h : ident label ('"' :: (name ++ '"' :: (ws ++ core))) = some (name, cs)) :
    (cs = core ∧ '"' ∉ name) ∨ Late core cs := by
  obtain ⟨word, raw, after, hcs, htext, hname, hblanks, -⟩ := ident_spec h
  by_cases hquote : '"' ∈ name
  · right
    have hquoted : word.quoted = true := by
      by_contra hbare
      obtain ⟨⟨hstart, -⟩, -⟩ := htext.bare (Bool.eq_false_iff.mpr hbare)
      cases raw with
      | nil => exact htext.ne_nil rfl
      | cons c raw =>
          obtain rfl : '"' = c := (List.cons.inj hcs).1
          have hletter : identStart '"' = true := hstart
          exact absurd hletter (by decide)
    have hroom := htext.quotes hquoted
    have hcount : 0 < name.count '"' := List.count_pos_iff.mpr hquote
    have hlen := congrArg List.length hcs
    rw [hname, cost] at hroom
    simp only [List.length_cons, List.length_append] at hlen
    refine late_of_short htext.ends (List.suffix_refl _) ?_ hgap.space ?_ hblanks
    · exact ⟨'"' :: (name ++ ['"']), by simp [← hcs]⟩
    · rw [List.length_append]
      omega
  · left
    refine ⟨?_, hquote⟩
    have hne : name ≠ [] := by
      rintro rfl
      -- an empty body is refused
      have hbody : quotedBody false ([] ++ '"' :: (ws ++ core)) = some ([], ws ++ core) :=
        quotedBody_append hquote hhead
      rw [List.nil_append] at hbody
      simp [ident, readWord, hbody] at h
    rw [ident_quoted hne hquote hgap hhead] at h
    exact (Prod.mk.inj (Option.some.inj h)).2.symm

/-- **A reader that is late stays late**: what it takes for the separator and the next name
reaches beyond that name's place. `p` tells the separator by its first character. -/
theorem Late.ident {p : Char → Bool} {x y : Char} {more a cs' : List Char}
    (hlate : Late (x :: more ++ '"' :: (name ++ '"' :: (ws ++ core))) (y :: a))
    (hp : p y = true) (hmore : ∀ c ∈ more, p c = false) (hquote : p '"' = false)
    (hgap : Gap ws core) (hcs : cs <:+ a)
    (h : Sql.ident label cs = some (name, cs')) : Late core cs' := by
  obtain ⟨hsuffix, hlt⟩ := hlate
  -- the separator starts in the name, or behind it
  have htail : y :: a <:+ (more ++ ['"']) ++ (name ++ '"' :: (ws ++ core)) := by
    rw [List.cons_append, List.suffix_cons_iff] at hsuffix
    rcases hsuffix with heq | hsuffix
    · rw [heq] at hlt
      simp at hlt
    · simpa using hsuffix
  have hlen : a.length < (name ++ '"' :: (ws ++ core)).length := by
    by_contra hle
    have hmem := mem_of_suffix_append htail (Nat.le_of_not_lt hle)
    rcases List.mem_append.mp hmem with hmem | hmem
    · rw [hmore y hmem] at hp
      cases hp
    · rw [List.mem_singleton.mp hmem, hquote] at hp
      cases hp
  have hname : a <:+ name ++ '"' :: (ws ++ core) :=
    List.suffix_of_suffix_length_le ((List.suffix_cons y a).trans htail)
      (List.suffix_append _ _) (Nat.le_of_lt hlen)
  have hgapsuffix : '"' :: (ws ++ core) <:+ name ++ '"' :: (ws ++ core) := List.suffix_append _ _
  -- so the next one ends behind its place
  obtain ⟨word, raw, after, rfl, htext, rfl, hblanks, -⟩ := ident_spec h
  have hroom := htext.room
  have hraw := hcs.length_le
  have hshort : after.length < (ws ++ core).length := by
    simp only [List.length_append, List.length_cons] at hlen hraw ⊢
    cases hquoted : word.quoted with
    | true =>
        rw [hquoted, if_pos rfl] at hroom
        omega
    | false =>
        by_contra hge
        obtain ⟨front, last, hends, -⟩ := htext.ends
        -- then its last character would be the quote
        have hlast : last :: after <:+ word.name ++ '"' :: (ws ++ core) := by
          refine List.IsSuffix.trans ⟨front, ?_⟩ (hcs.trans hname)
          rw [hends]
          simp
        have heq : last :: after = '"' :: (ws ++ core) := by
          refine (List.suffix_of_suffix_length_le hlast hgapsuffix ?_).eq_of_length ?_
          · simp only [List.length_cons, List.length_append]
            omega
          · simp only [List.length_cons, List.length_append]
            omega
        obtain ⟨⟨-, hcont⟩, -⟩ := htext.bare hquoted
        have hletter := hcont last (by rw [hends]; simp)
        rw [(List.cons.inj heq).1] at hletter
        exact absurd hletter (by decide)
  exact late_of_short htext.ends (hcs.trans hname)
    ((List.suffix_cons _ _).trans hgapsuffix) hgap.space hshort hblanks

end

/-- A reader that is late does not find a character that is only at the front. -/
theorem Late.not_mem {x : Char} {more a : List Char} (h : Late (x :: more) (x :: a)) : x ∈ more := by
  obtain ⟨hsuffix, hlt⟩ := h
  rcases List.suffix_cons_iff.mp hsuffix with heq | hsuffix
  · rw [heq] at hlt
    exact absurd hlt (Nat.lt_irrefl _)
  · exact hsuffix.subset (List.mem_cons_self ..)

/-! ## A text of quoted names

A text as a list of slots. Whatever the names, the reader takes one after the other, and after
each of them it is in step or late. -/

/-- A name between quotes with the text up to the next one, and how that text is read. -/
structure Slot where
  name : List Char
  ws : List Char
  core : List Char
  sep : List Char → Option (List Char)

def slotsText : List Slot → List Char
  | [] => []
  | s :: slots => '"' :: (s.name ++ '"' :: (s.ws ++ (s.core ++ slotsText slots)))

/-- The text after the last name. -/
def lastCore : List Slot → List Char
  | [] => []
  | [s] => s.core
  | _ :: s :: slots => lastCore (s :: slots)

/-- A token starts after the name and the blanks, and not a quoted one. -/
structure Slot.Fits (s : Slot) : Prop where
  space : ∀ c ∈ s.ws, isSpace c = true
  solid : Solid s.core
  head : s.core.head?.any (· ≠ '"') = true

/-- Moreover `x` begins the text and is nowhere else in it, its reader asks for `x`, and it
reads all of the text. -/
structure Slot.Leads (x : Char) (s : Slot) : Prop extends s.Fits where
  core_eq : ∃ more, s.core = x :: more ∧ x ∉ more
  in_step : ∀ rest, s.sep (s.core ++ '"' :: rest) = some ('"' :: rest)
  first : ∀ cs cs', s.sep cs = some cs' → ∃ a, cs = x :: a ∧ cs' <:+ a

/-- All slots but the last lead to the next one. -/
inductive Slots (x : Char) : List Slot → Prop
  | last {s : Slot} : s.Fits → Slots x [s]
  | more {s s' : Slot} {slots : List Slot} :
      s.Leads x → Slots x (s' :: slots) → Slots x (s :: s' :: slots)

/-- The names are read one after the other, with what is between them. -/
inductive Reads : List Slot → List Char → List Char → Prop
  | last {s : Slot} {cs r : List Char} : ident false cs = some (s.name, r) → Reads [s] cs r
  | more {s s' : Slot} {slots : List Slot} {cs r cs' r' : List Char} :
      ident false cs = some (s.name, r) → s.sep r = some cs' → Reads (s' :: slots) cs' r' →
        Reads (s :: s' :: slots) cs r'

section

variable {x : Char} {s : Slot} {slots : List Slot} {cs r : List Char}

/-- The blanks of the slot are a gap, whatever follows the slot. -/
theorem Slot.Fits.gap (h : s.Fits) (rest : List Char) : Gap s.ws (s.core ++ rest) := by
  refine ⟨h.space, ?_⟩
  have hhead := h.head
  have hsolid := h.solid
  cases hcore : s.core with
  | nil =>
      rw [hcore] at hhead
      cases hhead
  | cons c core =>
      rw [hcore] at hsolid
      exact hsolid

/-- No quote follows the name's own closing quote; two of them would be read as one quote of the
name. -/
theorem Slot.Fits.not_quote (h : s.Fits) (rest : List Char) :
    (s.ws ++ (s.core ++ rest)).head? ≠ some '"' := by
  cases hws : s.ws with
  | nil =>
      have hhead := h.head
      cases hcore : s.core with
      | nil =>
          rw [hcore] at hhead
          cases hhead
      | cons c core =>
          rw [hcore] at hhead
          simpa using hhead
  | cons c ws =>
      have hspace := h.space c (by simp [hws])
      intro hc
      rw [List.cons_append, List.head?_cons, Option.some.injEq] at hc
      rw [hc] at hspace
      exact absurd hspace (by decide)

/-- The first character of what leads to the next name tells it from the name. -/
theorem Slot.Leads.tells (h : s.Leads x) : ∃ more, s.core = x :: more ∧
    (∀ c ∈ more, decide (c = x) = false) ∧ decide ('"' = x) = false := by
  obtain ⟨more, hcore, hnotmem⟩ := h.core_eq
  refine ⟨more, hcore, fun c hc => ?_, ?_⟩
  · rw [decide_eq_false_iff_not]
    rintro rfl
    exact hnotmem hc
  · have hhead := h.head
    rw [hcore, List.head?_cons, Option.any_some, decide_eq_true_eq] at hhead
    exact decide_eq_false_iff_not.mpr (Ne.symm hhead)

/-- **A reader that is late stays so to the last name.** -/
theorem Reads.late {p : Char → Bool} {x' y : Char} {more a : List Char} (hslots : Slots x slots)
    (hlate : Late (x' :: more ++ slotsText slots) (y :: a)) (hp : p y = true)
    (hmore : ∀ c ∈ more, p c = false) (hquote : p '"' = false) (hcs : cs <:+ a)
    (h : Reads slots cs r) : Late (lastCore slots) r := by
  induction hslots generalizing p x' y more a cs with
  | @last s hfits =>
      cases h with
      | last h =>
          have hgap := hfits.gap []
          rw [List.append_nil] at hgap
          rw [slotsText, slotsText, List.append_nil] at hlate
          exact hlate.ident hp hmore hquote hgap hcs h
  | @more s s' slots hleads hslots ih =>
      cases h with
      | more h hsep hrest =>
          obtain ⟨a', rfl, hcs'⟩ := hleads.first _ _ hsep
          obtain ⟨more', hcore, hmore', hquote'⟩ := hleads.tells
          rw [slotsText] at hlate
          have hnext := hlate.ident hp hmore hquote (hleads.gap _) hcs h
          rw [hcore] at hnext
          exact ih (p := fun c => c = x) hnext (by simp) hmore' hquote' hcs' hrest

/-- **Names put between quotes as they are**, all of them read: they have no quotes in them
and the reader is in step, or it is late. -/
theorem Reads.in_step_or_late (hslots : Slots x slots) (h : Reads slots (slotsText slots) r) :
    (r = lastCore slots ∧ ∀ s ∈ slots, '"' ∉ s.name) ∨ Late (lastCore slots) r := by
  induction hslots with
  | @last s hfits =>
      cases h with
      | last h =>
          have hgap := hfits.gap []
          have hhead := hfits.not_quote []
          rw [List.append_nil] at hgap hhead
          rw [slotsText, slotsText, List.append_nil] at h
          rcases ident_slot hgap hhead h with ⟨rfl, hname⟩ | hlate
          · exact Or.inl ⟨rfl, by simpa using hname⟩
          · exact Or.inr hlate
  | @more s s' slots hleads hslots ih =>
      cases h with
      | more h hsep hrest =>
          rw [slotsText] at h
          -- in step up to here, or late from here on
          rcases ident_slot (hleads.gap _) (hleads.not_quote _) h with ⟨rfl, hname⟩ | hlate
          · rw [slotsText, hleads.in_step, Option.some.injEq] at hsep
            subst hsep
            rcases ih hrest with ⟨hr, hnames⟩ | hlate
            · exact Or.inl ⟨hr, List.forall_mem_cons.mpr ⟨hname, hnames⟩⟩
            · exact Or.inr hlate
          · right
            obtain ⟨a, rfl, hcs⟩ := hleads.first _ _ hsep
            obtain ⟨more, hcore, hmore, hquote⟩ := hleads.tells
            rw [hcore] at hlate
            change Late (lastCore (s' :: slots)) r
            exact Reads.late (p := fun c => c = x) hslots hlate (by simp) hmore hquote hcs hrest

end

/-! ## Separators

What stands between names is read by small readers, of which it is enough to know what they
begin with and that they leave an end of the text. -/

section

variable {cs r : List Char} {x : Char}

/-- What a punctuation mark is read from. -/
theorem punct_spec (h : punct x cs = some r) : ∃ a, cs = x :: a ∧ blanks a = some r := by
  cases cs with
  | nil => cases h
  | cons c cs =>
      simp only [punct, Option.ite_none_right_eq_some] at h
      exact ⟨cs, by rw [h.1], h.2⟩

/-- It leaves an end of the text. Lemmas of this kind are all the induction over the names needs
to know of a reader: where it can be afterwards. -/
theorem punct_suffix (h : punct x cs = some r) : r <:+ cs := by
  obtain ⟨a, rfl, ha⟩ := punct_spec h
  exact (blanks_suffix ha).trans (List.suffix_cons _ _)

/-- The equals sign has a rule of its own, because `=>` and other operators begin with it and
are refused. -/
theorem equals_spec (h : equals cs = some r) : ∃ a, cs = '=' :: a ∧ r <:+ a := by
  cases cs with
  | nil => cases h
  | cons c cs =>
      simp only [equals, Option.ite_none_right_eq_some] at h
      exact ⟨cs, by rw [h.1.1], blanks_suffix h.2⟩

/-- A parameter leaves an end of the text. -/
theorem param_suffix {n : Nat} (h : param cs = some (n, r)) : r <:+ cs := by
  cases cs with
  | nil => cases h
  | cons c cs =>
      simp only [param, Option.ite_none_right_eq_some, Option.bind_eq_some_iff,
        Option.map_eq_some_iff, Prod.mk.injEq] at h
      obtain ⟨-, n', -, r', hr, -, rfl⟩ := h
      exact (blanks_suffix hr).trans ((List.dropWhile_suffix _).trans (List.suffix_cons _ _))

/-- A keyword is known by the lower case of its first letter. That much is enough to tell it
from a name put into the text, and it holds of a keyword that was written in any case. -/
theorem keyword_spec {word : String} (h : keyword word cs = some r) :
    ∃ y a, cs = y :: a ∧ r <:+ a ∧ word.toList.head? = some y.toLower := by
  simp only [keyword, Option.bind_eq_some_iff, Option.ite_none_right_eq_some] at h
  obtain ⟨⟨w, after⟩, hw, hname, hr⟩ := h
  obtain ⟨raw, rfl, htext⟩ := readWord_spec hw
  simp only at hname hr
  subst hname
  obtain ⟨-, hclip⟩ := htext.bare rfl
  cases raw with
  | nil => exact absurd rfl htext.ne_nil
  | cons y raw =>
      refine ⟨y, raw ++ after, rfl, (blanks_suffix hr).trans (List.suffix_append _ _), ?_⟩
      simp only [List.map_cons, clip] at hclip
      have hsize := Char.utf8Size_le_four y.toLower
      rw [hclip, if_pos (by omega), List.head?_cons]

/-- A keyword leaves an end of the text. -/
theorem keyword_suffix {word : String} (h : keyword word cs = some r) : r <:+ cs := by
  obtain ⟨y, a, rfl, hr, -⟩ := keyword_spec h
  exact hr.trans (List.suffix_cons _ _)

end

/-! ## The relation

The two names in front are not in quotes, so they are told from the rest by their characters.
Read as they are, they have to be plain. -/

/-- A name that is read as it is without quotes. -/
structure Plain (name : List Char) : Prop where
  bare : Bare name
  lower : name.map Char.toLower = name

instance (name : List Char) : Decidable (Plain name) :=
  decidable_of_iff (Bare name ∧ name.map Char.toLower = name)
    ⟨fun ⟨hb, hl⟩ => ⟨hb, hl⟩, fun h => ⟨h.bare, h.lower⟩⟩

/-- A plain name survives what PostgreSQL does to a name without quotes: it is folded to lower
case and cut at 63 bytes. -/
theorem Plain.clip_lower {name : List Char} (h : Plain name) (hbytes : byteLength name ≤ 63) :
    clip 63 (name.map Char.toLower) = name := by
  rw [h.lower, clip_of_le hbytes]

section

variable {schema table ws core cs r : List Char}

/-- **A relation put there as it is** and read as it is leaves the reader in step only if both
names are plain. -/
theorem relation_in_step_or_late (hgap : Gap ws core)
    (hcs : cs <:+ schema ++ '.' :: (table ++ (ws ++ core)))
    (h : relation cs = some ((schema, table), r)) :
    (r = core ∧ Plain schema ∧ Plain table ∧ String.ofList schema ∉ notColId) ∨ Late core r := by
  simp only [relation, Option.bind_eq_bind, Option.bind_eq_some_iff, Option.pure_def,
    Option.some.injEq, Prod.mk.injEq, Prod.exists] at h
  obtain ⟨schema', cs₁, hschema, cs₂, hdot, table', r', htable, ⟨rfl, rfl⟩, rfl⟩ := h
  obtain ⟨word, raw, after, rfl, htext, rfl, hblanks, hkeyword⟩ := ident_spec hschema
  obtain ⟨a, rfl, ha⟩ := punct_spec hdot
  obtain ⟨word', raw', after', rfl, htext', rfl, hblanks', -⟩ := ident_spec htable
  have hroom := htext.room
  have hroom' := htext'.room
  have hlen := hcs.length_le
  have hlen₁ := (blanks_suffix hblanks).length_le
  have hlen₂ := (blanks_suffix ha).length_le
  simp only [List.length_append, List.length_cons] at hlen hlen₁ hlen₂
  have hinner : raw' ++ after' <:+ raw ++ after :=
    (blanks_suffix ha).trans ((List.suffix_cons _ _).trans
      ((blanks_suffix hblanks).trans (List.suffix_append _ _)))
  by_cases hlt : after'.length < (ws ++ core).length
  · right
    refine late_of_short htext'.ends (hinner.trans hcs) ?_ hgap.space hlt hblanks'
    exact ⟨word.name ++ '.' :: word'.name, by simp⟩
  · left
    -- there is no room for anything but the names
    rw [List.length_append] at hlt
    have hwhole := hcs.eq_of_length (by simp only [List.length_append, List.length_cons]; omega)
    obtain ⟨hraw, hafter⟩ := List.append_inj hwhole (by omega)
    have hdotted : '.' :: a = after :=
      (blanks_suffix hblanks).eq_of_length (by simp only [List.length_cons]; omega)
    have ha' : a = word'.name ++ (ws ++ core) := by
      rw [hafter] at hdotted
      exact (List.cons.inj hdotted).2
    have hinside : raw' ++ after' = a :=
      (blanks_suffix ha).eq_of_length (by simp only [List.length_append]; omega)
    rw [ha'] at hinside
    obtain ⟨hraw', hafter'⟩ := List.append_inj hinside (by omega)
    obtain ⟨hbare, hquoted, hname⟩ := htext.eq_name (by omega)
    obtain ⟨hbare', -, hname'⟩ := htext'.eq_name (by omega)
    rw [hraw] at hbare hname
    rw [hraw'] at hbare' hname'
    refine ⟨?_, ⟨hbare, hname.symm⟩, ⟨hbare', hname'.symm⟩, fun hmem => hkeyword ⟨rfl, hquoted, hmem⟩⟩
    rw [hafter', hgap.blanks, Option.some.injEq] at hblanks'
    exact hblanks'.symm

/-- Plain names are read as they are. -/
theorem relation_plain (hschema : Plain schema) (htable : Plain table)
    (hbytes : byteLength schema ≤ 63) (hbytes' : byteLength table ≤ 63)
    (hkeyword : String.ofList schema ∉ notColId) (hgap : Gap ws core)
    (hends : EndsWord (ws ++ core)) :
    relation (schema ++ '.' :: (table ++ (ws ++ core))) = some ((schema, table), core) := by
  have hgap' : Gap [] ('.' :: (table ++ (ws ++ core))) :=
    ⟨by simp, by simp [Solid, isSpace]⟩
  have hends' : EndsWord ([] ++ '.' :: (table ++ (ws ++ core))) := by
    intro d hd
    obtain rfl : '.' = d := Option.some.inj hd
    decide
  have hname := hschema.clip_lower hbytes
  have hname' := htable.clip_lower hbytes'
  have hread : ident false (schema ++ ([] ++ '.' :: (table ++ (ws ++ core))))
      = some (clip 63 (schema.map Char.toLower), '.' :: (table ++ (ws ++ core))) :=
    ident_bare hschema.bare hends' hgap' fun _ => by rwa [hname]
  have hread' : ident true (table ++ (ws ++ core))
      = some (clip 63 (table.map Char.toLower), core) :=
    ident_bare htable.bare hends hgap fun h => Bool.noConfusion h
  have hdot : punct '.' ('.' :: (table ++ (ws ++ core))) = some (table ++ (ws ++ core)) := by
    rw [punct, if_pos rfl, (htable.bare.solid _).blanks]
  rw [hname, List.nil_append] at hread
  rw [hname'] at hread'
  simp only [relation, hread, hdot, hread', Option.bind_eq_bind, Option.bind_some, Option.pure_def]

end

/-! ## Parameters and assignments -/

/-- What stands after the equals sign. -/
def paramText (n : Nat) : List Char := '$' :: Nat.toDigits 10 n

/-- What may follow a parameter. -/
def EndsParam (rest : List Char) : Prop :=
  ∀ d ∈ rest.head?, d.isDigit = false ∧ identStart d = false

instance (rest : List Char) : Decidable (EndsParam rest) := Option.decidableForallMem rest.head?

section

variable {ws core : List Char}

/-- A parameter that was written is read with its number, up to what follows it. -/
theorem param_paramText (n : Nat) (hends : EndsParam (ws ++ core)) (hgap : Gap ws core) :
    param (paramText n ++ (ws ++ core)) = some (n, core) := by
  have hall : ∀ c ∈ Nat.toDigits 10 n, c.isDigit = true := fun c hc =>
    Nat.isDigit_of_mem_toDigits (by decide) (by decide) hc
  have hstops : Stops Char.isDigit (ws ++ core) := fun d hd => (hends d hd).1
  have hstart : (ws ++ core).head?.all (fun d => !identStart d) = true := by
    rw [Option.all_eq_true]
    intro d hd
    rw [(hends d hd).2]
    rfl
  have htake := takeWhile_front hall hstops
  have hdrop := dropWhile_front hall hstops
  rw [paramText, List.cons_append, param, htake, hdrop,
    if_pos ⟨rfl, Nat.toDigits_ne_nil, hstart⟩, digitsValue_toDigits,
    Option.bind_some, hgap.blanks]
  rfl

/-- What follows the equals sign and the parameter. -/
def columnParam (cs : List Char) : Option (List Char) :=
  (equals cs).bind fun cs => (param cs).map Prod.snd

/-- The equals sign, the parameter, and what comes before the next name. -/
def afterColumn (sep : List Char → Option (List Char)) (cs : List Char) : Option (List Char) :=
  (columnParam cs).bind sep

/-- The equals sign that was written, with the blank behind it, is read. -/
theorem equals_blank (core : List Char) (h : Solid core) :
    equals ('=' :: ' ' :: core) = some core := by
  have hblank : blanks (' ' :: core) = some core :=
    (Gap.mk (by simp [isSpace]) h : Gap [' '] core).blanks
  have hop : (' ' :: core).head?.all (fun d => !opChar d) = true := by
    rw [List.head?_cons, Option.all_some]
    decide
  rw [equals, if_pos ⟨rfl, Or.inl hop⟩, hblank]

/-- The equals sign and the parameter together, as they were written. -/
theorem columnParam_paramText (n : Nat) (hends : EndsParam (ws ++ core)) (hgap : Gap ws core) :
    columnParam ('=' :: ' ' :: (paramText n ++ (ws ++ core))) = some core := by
  rw [columnParam, equals_blank _ (by simp [Solid, paramText, isSpace]), Option.bind_some,
    param_paramText n hends hgap]
  rfl

/-- They begin with the equals sign. A reader that is late looks for it among the letters of a
name, or behind it. -/
theorem columnParam_first {cs r : List Char} (h : columnParam cs = some r) :
    ∃ a, cs = '=' :: a ∧ r <:+ a := by
  simp only [columnParam, Option.bind_eq_some_iff, Option.map_eq_some_iff, Prod.exists] at h
  obtain ⟨cs₁, hequals, n, r', hparam, rfl⟩ := h
  obtain ⟨a, rfl, hcs₁⟩ := equals_spec hequals
  exact ⟨a, rfl, (param_suffix hparam).trans hcs₁⟩

/-- So does all that stands between a column and the next one, whatever the separator is. -/
theorem afterColumn_first {sep : List Char → Option (List Char)}
    (hsep : ∀ cs cs', sep cs = some cs' → cs' <:+ cs) {cs cs' : List Char}
    (h : afterColumn sep cs = some cs') : ∃ a, cs = '=' :: a ∧ cs' <:+ a := by
  simp only [afterColumn, Option.bind_eq_some_iff] at h
  obtain ⟨r, hr, hcs'⟩ := h
  obtain ⟨a, rfl, hsuffix⟩ := columnParam_first hr
  exact ⟨a, rfl, (hsep _ _ hcs').trans hsuffix⟩

/-- An assignment is a name with what follows it. -/
theorem assignment_eq (cs : List Char) :
    assignment cs = (ident false cs).bind fun r =>
      (equals r.2).bind fun cs => (param cs).map fun p => ((r.1, p.1), p.2) := by
  unfold assignment
  cases ident false cs with
  | none => rfl
  | some r =>
      simp only [Option.bind_eq_bind, Option.bind_some]
      cases equals r.2 with
      | none => rfl
      | some cs =>
          simp only [Option.bind_some]
          cases param cs with
          | none => rfl
          | some p => rfl

/-- An assignment that was read, taken apart into its name and what follows the name, which is
the form in which `Reads` has it. -/
theorem assignment_spec {cs r : List Char} {v : List Char × Nat}
    (h : assignment cs = some (v, r)) :
    ∃ r₀, ident false cs = some (v.1, r₀) ∧ columnParam r₀ = some r := by
  rw [assignment_eq] at h
  simp only [Option.bind_eq_some_iff, Option.map_eq_some_iff, Prod.mk.injEq] at h
  obtain ⟨⟨name, r₀⟩, hname, cs', hequals, ⟨n, r'⟩, hparam, rfl, rfl⟩ := h
  exact ⟨r₀, hname, by simp [columnParam, hequals, hparam]⟩

end

/-! ## Lists of names

The lists of the statements are chains: the same way leads from each name to the next, with a
number that counts on. -/

/-- Slots for the names, numbered from `k`, all but the last with the same way to the next. -/
def chain (ws : List Char) (core : Nat → List Char) (sep : List Char → Option (List Char))
    (last : Nat → List Char) (lastSep : List Char → Option (List Char)) :
    Nat → List (List Char) → List Slot
  | _, [] => []
  | k, [name] => [⟨name, ws, last k, lastSep⟩]
  | k, name :: name' :: names =>
      ⟨name, ws, core k, sep⟩ :: chain ws core sep last lastSep (k + 1) (name' :: names)

section

variable {x : Char} {ws : List Char} {core last : Nat → List Char}
variable {sep lastSep : List Char → Option (List Char)}

/-- A chain of names has a first slot; its shape depends on whether it is the last as well, and
the lemmas below do not care. -/
theorem chain_cons (k : Nat) (name : List Char) (names : List (List Char)) :
    ∃ s slots, chain ws core sep last lastSep k (name :: names) = s :: slots := by
  cases names with
  | nil => exact ⟨_, _, rfl⟩
  | cons name' names => exact ⟨_, _, rfl⟩

/-- The slots of a chain have its names. -/
@[simp] theorem chain_names (k : Nat) (names : List (List Char)) :
    (chain ws core sep last lastSep k names).map Slot.name = names := by
  induction k, names using chain.induct with
  | case1 => rfl
  | case2 => rfl
  | case3 k name name' names ih => rw [chain, List.map_cons, ih]

/-- If what follows the last name leads on as well, the whole chain does: so two chains are put
one behind the other. -/
theorem chain_leads (hcore : ∀ k name, Slot.Leads x ⟨name, ws, core k, sep⟩)
    (hlast : ∀ k name, Slot.Leads x ⟨name, ws, last k, lastSep⟩) (k : Nat)
    (names : List (List Char)) : ∀ s ∈ chain ws core sep last lastSep k names, s.Leads x := by
  induction k, names using chain.induct with
  | case1 => simp [chain]
  | case2 k name => simpa [chain] using hlast k name
  | case3 k name name' names ih =>
      rw [chain, List.forall_mem_cons]
      exact ⟨hcore k name, ih⟩

/-- A chain is a list of slots, as soon as its inner slots lead on and the last one fits. -/
theorem chain_slots (hcore : ∀ k name, Slot.Leads x ⟨name, ws, core k, sep⟩)
    (hlast : ∀ k name, Slot.Fits ⟨name, ws, last k, lastSep⟩) (k : Nat)
    {names : List (List Char)} (hne : names ≠ []) :
    Slots x (chain ws core sep last lastSep k names) := by
  induction k, names using chain.induct with
  | case1 => exact absurd rfl hne
  | case2 k name => exact Slots.last (hlast k name)
  | case3 k name name' names ih =>
      have hrest := ih (List.cons_ne_nil _ _)
      rw [chain]
      cases names with
      | nil => exact Slots.more (hcore k name) hrest
      | cons name'' names => exact Slots.more (hcore k name) hrest

/-- The text after the last name, found from the last slot. -/
theorem lastCore_eq {slots : List Slot} {s : Slot} (h : slots.getLast? = some s) :
    lastCore slots = s.core := by
  induction slots using lastCore.induct with
  | case1 => cases h
  | case2 s' =>
      obtain rfl := Option.some.inj h
      rfl
  | case3 s' s'' slots ih =>
      rw [List.getLast?_cons_cons] at h
      exact ih h

/-- The last slot of a chain has the last number. -/
theorem getLast?_chain (k : Nat) {names : List (List Char)} (hne : names ≠ []) :
    ∃ name, (chain ws core sep last lastSep k names).getLast?
      = some ⟨name, ws, last (k + names.length - 1), lastSep⟩ := by
  induction k, names using chain.induct with
  | case1 => exact absurd rfl hne
  | case2 k name => exact ⟨name, rfl⟩
  | case3 k name name' names ih =>
      obtain ⟨last', hrest⟩ := ih (List.cons_ne_nil _ _)
      refine ⟨last', ?_⟩
      have hindex : k + (name :: name' :: names).length - 1
          = k + 1 + (name' :: names).length - 1 := by
        simp only [List.length_cons]
        omega
      rw [hindex, ← hrest]
      cases names with
      | nil => rfl
      | cons name'' names => rw [chain, chain, List.getLast?_cons_cons]

/-- So the text after the last name of a chain is known from the number of names. -/
theorem lastCore_chain (k : Nat) {names : List (List Char)} (hne : names ≠ []) :
    lastCore (chain ws core sep last lastSep k names) = last (k + names.length - 1) := by
  obtain ⟨name, hlast⟩ := getLast?_chain k hne
  exact lastCore_eq hlast

/-- What the slots before the last lead to. -/
theorem Reads.append {slots slots' : List Slot} {s : Slot} {cs r cs' r' : List Char}
    (h : Reads slots cs r) (hs : slots.getLast? = some s) (hsep : s.sep r = some cs')
    (h' : Reads slots' cs' r') : Reads (slots ++ slots') cs r' := by
  induction h with
  | last hident =>
      obtain rfl := Option.some.inj hs
      cases h' with
      | last hident' => exact Reads.more hident hsep (Reads.last hident')
      | more hident' hsep' hrest =>
          exact Reads.more hident hsep (Reads.more hident' hsep' hrest)
  | more hident hsep' hrest ih =>
      rw [List.getLast?_cons_cons] at hs
      exact Reads.more hident hsep' (ih hs hsep)

/-- Slots that all lead on may stand before others. -/
theorem Slots.append {slots slots' : List Slot} (h : ∀ s ∈ slots, s.Leads x)
    (h' : Slots x slots') : Slots x (slots ++ slots') := by
  induction slots with
  | nil => exact h'
  | cons s slots ih =>
      rw [List.forall_mem_cons] at h
      have hrest := ih h.2
      rw [List.cons_append]
      cases hlist : slots ++ slots' with
      | nil =>
          rw [hlist] at hrest
          cases hrest
      | cons s' rest =>
          rw [hlist] at hrest
          exact Slots.more h.1 hrest

/-- The text of two chains is the one behind the other. -/
theorem slotsText_append (slots slots' : List Slot) :
    slotsText (slots ++ slots') = slotsText slots ++ slotsText slots' := by
  induction slots with
  | nil => rfl
  | cons s slots ih => simp [slotsText, ih]

/-- Every slot takes at least one character. The readers of lists take the length of the text
for fuel, and this is why that is enough. -/
theorem length_le_slotsText (slots : List Slot) : slots.length ≤ (slotsText slots).length := by
  induction slots with
  | nil => exact Nat.le_refl _
  | cons s slots ih =>
      simp only [slotsText, List.length_cons, List.length_append]
      omega

/-- The end of two chains is the end of the second. -/
theorem lastCore_append (slots : List Slot) {slots' : List Slot} (h : slots' ≠ []) :
    lastCore (slots ++ slots') = lastCore slots' := by
  induction slots with
  | nil => rfl
  | cons s slots ih =>
      rw [← ih, List.cons_append]
      cases hlist : slots ++ slots' with
      | nil => exact absurd (List.append_eq_nil_iff.mp hlist).2 h
      | cons s' rest => rfl

/-! ## Reading the lists

`sepBy` reads a chain whole if the names are read, and what it has read is a chain in any case. -/

variable {α : Type} {item : List Char → Option (α × List Char)}
variable {split : List Char → Option (List Char)}

/-- A list that is read has an item, by the grammar: `sepBy` reads one before it looks for a
separator. -/
theorem sepBy_ne_nil {fuel : Nat} {cs r : List Char} {vs : List α}
    (h : sepBy item split fuel cs = some (vs, r)) : vs ≠ [] := by
  cases fuel with
  | zero => cases h
  | succ fuel =>
      simp only [sepBy, Option.bind_eq_some_iff] at h
      obtain ⟨v, -, h⟩ := h
      split at h
      · simp only [Option.map_eq_some_iff, Prod.mk.injEq] at h
        obtain ⟨_, _, rfl, -⟩ := h
        exact List.cons_ne_nil _ _
      · simp only [Option.some.injEq, Prod.mk.injEq] at h
        obtain ⟨rfl, -⟩ := h
        exact List.cons_ne_nil _ _

/-- A list leaves an end of the text if its items and separators do. -/
theorem sepBy_suffix (hitem : ∀ cs v r, item cs = some (v, r) → r <:+ cs)
    (hsplit : ∀ cs r, split cs = some r → r <:+ cs) {fuel : Nat} {cs r : List Char}
    {vs : List α} (h : sepBy item split fuel cs = some (vs, r)) : r <:+ cs := by
  induction fuel generalizing cs vs with
  | zero => cases h
  | succ fuel ih =>
      simp only [sepBy, Option.bind_eq_some_iff] at h
      obtain ⟨⟨v, r₁⟩, hv, h⟩ := h
      have hr₁ := hitem _ _ _ hv
      cases hnext : split r₁ with
      | none =>
          simp only [hnext, Option.some.injEq, Prod.mk.injEq] at h
          obtain ⟨-, rfl⟩ := h
          exact hr₁
      | some cs' =>
          simp only [hnext, Option.map_eq_some_iff, Prod.mk.injEq] at h
          obtain ⟨⟨vs', r'⟩, hrest, -, rfl⟩ := h
          exact (ih hrest).trans ((hsplit _ _ hnext).trans hr₁)

/-- A list that is read, in terms of the names in it: `after` reads what an item has after
its name. -/
theorem sepBy_reads {nameOf : α → List Char} {after : List Char → Option (List Char)}
    (hitem : ∀ cs v r, item cs = some (v, r) →
      ∃ r₀, ident false cs = some (nameOf v, r₀) ∧ after r₀ = some r)
    {fuel k : Nat} {cs r : List Char} {vs : List α}
    (h : sepBy item split fuel cs = some (vs, r)) :
    ∃ r₀, Reads (chain ws core (fun cs => (after cs).bind split) last lastSep k
      (vs.map nameOf)) cs r₀ ∧ after r₀ = some r := by
  induction fuel generalizing k cs vs with
  | zero => cases h
  | succ fuel ih =>
      simp only [sepBy, Option.bind_eq_some_iff] at h
      obtain ⟨⟨v, r₁⟩, hv, h⟩ := h
      obtain ⟨r₀, hident, hafter⟩ := hitem _ _ _ hv
      -- the last name, or one with a separator behind it
      cases hsplit : split r₁ with
      | none =>
          simp only [hsplit, Option.some.injEq, Prod.mk.injEq] at h
          obtain ⟨rfl, rfl⟩ := h
          exact ⟨r₀, Reads.last hident, hafter⟩
      | some cs' =>
          simp only [hsplit, Option.map_eq_some_iff, Prod.mk.injEq] at h
          obtain ⟨⟨vs', r'⟩, hrest, rfl, rfl⟩ := h
          obtain ⟨r₂, hreads, hafter₂⟩ := ih (k := k + 1) hrest
          refine ⟨r₂, ?_, hafter₂⟩
          cases vs' with
          | nil => exact absurd rfl (sepBy_ne_nil hrest)
          | cons v' vs' =>
              rw [List.map_cons] at hreads
              obtain ⟨s, slots, hchain⟩ := chain_cons (k + 1) (nameOf v') (vs'.map nameOf)
              rw [hchain] at hreads
              rw [List.map_cons, List.map_cons, chain, hchain]
              exact Reads.more hident (by simp [hafter, hsplit]) hreads

/-- **Names in step are all read**, each with its number. -/
theorem sepBy_chain (good : List Char → Prop) (val : List Char → Nat → α) {tail stop : List Char}
    (hmid : ∀ name k rest, good name →
      ∃ r, item ('"' :: (name ++ '"' :: (ws ++ (core k ++ '"' :: rest)))) = some (val name k, r) ∧
        split r = some ('"' :: rest))
    (hend : ∀ name k, good name →
      item ('"' :: (name ++ '"' :: (ws ++ (last k ++ tail)))) = some (val name k, stop))
    (hstop : split stop = none) {fuel k : Nat} {names : List (List Char)} (hne : names ≠ [])
    (hfuel : names.length ≤ fuel) (hgood : ∀ name ∈ names, good name) :
    sepBy item split fuel (slotsText (chain ws core sep last lastSep k names) ++ tail)
      = some ((names.zipIdx k).map fun p => val p.1 p.2, stop) := by
  induction k, names using chain.induct generalizing fuel with
  | case1 => exact absurd rfl hne
  | case2 k name =>
      obtain ⟨fuel, rfl⟩ : ∃ n, fuel = n + 1 := ⟨fuel - 1, by simp at hfuel; omega⟩
      have hread := hend name k (hgood name (by simp))
      simp only [chain, slotsText, List.append_nil, List.cons_append, List.append_assoc, sepBy,
        hread, Option.bind_some, hstop, List.zipIdx_cons, List.zipIdx_nil, List.map_cons,
        List.map_nil]
  | case3 k name name' names ih =>
      obtain ⟨fuel, rfl⟩ : ∃ n, fuel = n + 1 := ⟨fuel - 1, by simp at hfuel; omega⟩
      rw [List.forall_mem_cons] at hgood
      have hfuel' : (name' :: names).length ≤ fuel := Nat.le_of_succ_le_succ hfuel
      have hrest := ih (List.cons_ne_nil _ _) hfuel' hgood.2
      -- what follows the first name begins with the quote of the second
      obtain ⟨s, rest, hchain⟩ : ∃ s rest,
          chain ws core sep last lastSep (k + 1) (name' :: names) = s :: rest :=
        chain_cons (k + 1) name' names
      obtain ⟨r, hread, hsplit⟩ := hmid name k
        (s.name ++ '"' :: (s.ws ++ (s.core ++ slotsText rest)) ++ tail) hgood.1
      rw [hchain, slotsText] at hrest
      simp only [chain, hchain, slotsText, List.cons_append, List.append_assoc, sepBy] at hrest hread ⊢
      rw [hread]
      simp only [List.cons_append, List.append_assoc] at hsplit
      simp only [Option.bind_some, hsplit, hrest, Option.map_some, List.zipIdx_cons, List.map_cons]

end

/-! ## The separators of these statements

The comma, `AND` and `WHERE`, each with the blanks around it. -/

/-- What stands between one thing and the next: blanks, and a text that `sep` reads up to the
quote that follows. -/
structure Between (ws core : List Char) (sep : List Char → Option (List Char)) : Prop where
  space : ∀ c ∈ ws, isSpace c = true
  solid : Solid core
  head : core.head?.any (· ≠ '"') = true
  in_step : ∀ rest, sep (core ++ '"' :: rest) = some ('"' :: rest)
  suffix : ∀ cs cs', sep cs = some cs' → cs' <:+ cs

section

variable {ws core : List Char} {sep : List Char → Option (List Char)} {rest : List Char}

/-- One blank before a name is skipped. -/
theorem blanks_quote : blanks (' ' :: '"' :: rest) = some ('"' :: rest) :=
  (Gap.mk (by simp [isSpace]) (by simp [Solid, isSpace]) : Gap [' '] ('"' :: rest)).blanks

/-- A punctuation mark and a blank before the next name, as they are written. -/
theorem punct_in_step {x : Char} : punct x ([x, ' '] ++ '"' :: rest) = some ('"' :: rest) := by
  simp only [List.cons_append, List.nil_append, punct, if_true, blanks_quote]

/-- A keyword and a blank before the next name. The keyword may be written in any case, as long
as its lower case is the word. -/
theorem keyword_in_step {word : String} (raw : List Char) (h : Bare raw)
    (hword : clip 63 (raw.map Char.toLower) = word.toList) :
    keyword word (raw ++ ' ' :: '"' :: rest) = some ('"' :: rest) := by
  rw [keyword_bare h _ hword, blanks_quote]
  intro d hd
  obtain rfl : ' ' = d := Option.some.inj hd
  decide

/-- The comma between two columns. -/
theorem between_comma : Between [] [',', ' '] (punct ',') := by
  exact ⟨by simp, by decide, by decide, fun _ => punct_in_step, fun _ _ => punct_suffix⟩

/-- The `AND` between two conditions. -/
theorem between_and : Between [' '] "AND ".toList (keyword "and") :=
  ⟨all_space (by decide), by decide, by decide,
    fun _ => keyword_in_step "AND".toList (by decide) (by decide),
    fun _ _ => keyword_suffix⟩

/-- The `WHERE` between the assignments and the conditions, behind any blanks. -/
theorem between_where (ws : List Char) (hws : ∀ c ∈ ws, isSpace c = true) :
    Between ws "WHERE ".toList (keyword "where") :=
  ⟨hws, by decide, by decide,
    fun _ => keyword_in_step "WHERE".toList (by decide) (by decide),
    fun _ _ => keyword_suffix⟩

/-- The blanks before the separator are a gap. -/
theorem Between.gap (h : Between ws core sep) (rest : List Char) : Gap ws (core ++ rest) := by
  refine ⟨h.space, ?_⟩
  have hhead := h.head
  have hsolid := h.solid
  cases core with
  | nil => cases hhead
  | cons c core => exact hsolid

/-- The text of an assignment after its column. -/
def assignText (k : Nat) : List Char := '=' :: ' ' :: paramText k

/-- The text after a column has one equals sign, its first character. This is what a reader that
is late runs out of. -/
theorem not_mem_assignText (k : Nat) : '=' ∉ ' ' :: paramText k := by
  have hdigits : '=' ∉ Nat.toDigits 10 k := by
    intro h
    have := Nat.isDigit_of_mem_toDigits (by decide) (by decide) h
    exact absurd this (by decide)
  simp [paramText, hdigits]

/-- Nothing is late after the last assignment. -/
theorem not_late_assignText {k : Nat} {ws r r' : List Char} (hws : '=' ∉ ws)
    (h : Sql.columnParam r = some r') : ¬ Late (assignText k ++ ws) r := by
  intro hlate
  obtain ⟨a, rfl, -⟩ := columnParam_first h
  rcases List.mem_append.mp hlate.not_mem with hmem | hmem
  · exact not_mem_assignText k hmem
  · exact hws hmem

/-- A name that is read as it is between quotes. -/
structure Quotable (name : List Char) : Prop where
  ne_nil : name ≠ []
  no_quote : '"' ∉ name
  bytes : byteLength name ≤ 63

/-- A name without quotes in it is read between quotes as it is. It may be a keyword: between
quotes that does not matter. -/
theorem Quotable.ident {name ws core : List Char} (h : Quotable name) (hgap : Gap ws core)
    (hrest : (ws ++ core).head? ≠ some '"') (label : Bool) :
    Sql.ident label ('"' :: (name ++ '"' :: (ws ++ core))) = some (name, core) := by
  rw [ident_quoted h.ne_nil h.no_quote hgap hrest, clip_of_le h.bytes]

/-- An assignment to such a name. -/
theorem Quotable.assignment {name ws core : List Char} (h : Quotable name) (k : Nat)
    (hends : EndsParam (ws ++ core)) (hgap : Gap ws core) :
    Sql.assignment ('"' :: (name ++ '"' :: ([' '] ++ (assignText k ++ (ws ++ core)))))
      = some ((name, k), core) := by
  have hgap' : Gap [' '] (assignText k ++ (ws ++ core)) :=
    ⟨by simp [isSpace], by simp [Solid, assignText, isSpace]⟩
  have hequals : equals (assignText k ++ (ws ++ core)) = some (paramText k ++ (ws ++ core)) :=
    equals_blank _ (by simp [Solid, paramText, isSpace])
  rw [assignment_eq, h.ident hgap' (by simp), Option.bind_some, hequals, Option.bind_some,
    param_paramText k hends hgap]
  rfl

/-- What stands between two assignments may follow the first. -/
theorem Between.ends (h : Between ws core sep) (hends : EndsParam (ws ++ core))
    (rest : List Char) : EndsParam (ws ++ (core ++ rest)) := by
  intro d hd
  have hhead := h.head
  refine hends d ?_
  cases hws : ws with
  | nil =>
      cases hcore : core with
      | nil =>
          rw [hcore] at hhead
          cases hhead
      | cons c core => simpa [hws, hcore] using hd
  | cons c ws => simpa [hws] using hd

/-- What follows a column is read up to the separator, with the number it was written with. -/
theorem Between.columnParam (h : Between ws core sep) (hends : EndsParam (ws ++ core)) (k : Nat) :
    Sql.columnParam (assignText k ++ (ws ++ core) ++ rest) = some (core ++ rest) := by
  have hread := columnParam_paramText k (h.ends hends rest) (h.gap rest)
  simpa [assignText] using hread

/-- What follows a column that is not the last leads to the next one. -/
theorem Between.leads (h : Between ws core sep) (hends : EndsParam (ws ++ core))
    (hnot : '=' ∉ ws ++ core) (k : Nat) (name : List Char) :
    Slot.Leads '=' ⟨name, [' '], assignText k ++ (ws ++ core), afterColumn sep⟩ := by
  refine ⟨⟨by simp [isSpace], by simp [Solid, assignText, isSpace], by simp [assignText]⟩,
    ⟨' ' :: paramText k ++ (ws ++ core), rfl, ?_⟩, fun rest => ?_, fun cs cs' hcs => ?_⟩
  · rw [List.mem_append, not_or]
    exact ⟨not_mem_assignText k, hnot⟩
  · change (Sql.columnParam (assignText k ++ (ws ++ core) ++ '"' :: rest)).bind sep = _
    rw [h.columnParam hends, Option.bind_some, h.in_step]
  · exact afterColumn_first h.suffix hcs

/-- **A list of assignments to such names is read whole**, with the numbers from `k` on. -/
theorem sepBy_assignments (h : Between ws core sep) (hends : EndsParam (ws ++ core))
    {mid last tail ws' stop : List Char} {midSep lastSep : List Char → Option (List Char)}
    (hmid : mid = ws ++ core) (hlast : last ++ tail = ws' ++ stop) (hgap : Gap ws' stop)
    (hends' : EndsParam (ws' ++ stop)) (hstop : sep stop = none) {fuel k : Nat}
    {names : List (List Char)} (hne : names ≠ []) (hfuel : names.length ≤ fuel)
    (hnames : ∀ name ∈ names, Quotable name) :
    sepBy assignment sep fuel (slotsText (chain [' '] (fun k => assignText k ++ mid) midSep
      (fun k => assignText k ++ last) lastSep k names) ++ tail) = some (names.zipIdx k, stop) := by
  have hpairs : (names.zipIdx k).map (fun p => (p.1, p.2)) = names.zipIdx k := List.map_id' _
  rw [← hpairs]
  refine sepBy_chain Quotable (fun name k => (name, k)) ?_ ?_ hstop hne hfuel hnames
  · intro name k rest hname
    refine ⟨core ++ '"' :: rest, ?_, h.in_step rest⟩
    have hread := hname.assignment k (h.ends hends ('"' :: rest)) (h.gap ('"' :: rest))
    rw [hmid]
    simpa only [List.append_assoc] using hread
  · intro name k hname
    have hread := hname.assignment k hends' hgap
    rw [List.append_assoc, hlast]
    exact hread

end

/-! ## A relation and names in one text

The general form of the four results on statements: a relation, something that leads on, and
slots. -/

/-- What leads from the relation to the first name: `text`, which begins with `x`, read by
`sep`; `p` tells its first character. -/
structure Opening (x : Char) (more : List Char) (p : Char → Bool)
    (sep : List Char → Option (List Char)) : Prop where
  solid : Solid [x]
  in_step : ∀ rest, sep (x :: more ++ '"' :: rest) = some ('"' :: rest)
  first : ∀ cs cs', sep cs = some cs' → ∃ y a, cs = y :: a ∧ p y = true ∧ cs' <:+ a
  more_ne : ∀ c ∈ more, p c = false
  quote_ne : p '"' = false

section

variable {x : Char} {slots : List Slot}

/-- Slots have a last one, so they are not empty. -/
theorem Slots.ne_nil (h : Slots x slots) : slots ≠ [] := by
  cases h with
  | last => exact List.cons_ne_nil _ _
  | more => exact List.cons_ne_nil _ _

/-- The text of slots begins with the quote of the first name. -/
theorem Slots.text_eq (h : Slots x slots) : ∃ rest, slotsText slots = '"' :: rest := by
  cases h with
  | last => exact ⟨_, rfl⟩
  | more => exact ⟨_, rfl⟩

/-- It leads to the names. -/
theorem Opening.leads {more : List Char} {x' : Char} {p : Char → Bool}
    {sep : List Char → Option (List Char)} (h : Opening x' more p sep) (hslots : Slots x slots) :
    sep (x' :: more ++ slotsText slots) = some (slotsText slots) := by
  obtain ⟨rest, htext⟩ := hslots.text_eq
  rw [htext, h.in_step]

/-- **Names put into a text as they are, and read from it**: if the reader is not late in the
end, the names of the relation are plain, and no other name has a quote in it. -/
theorem relation_names {schema table ws more cs r₁ r₂ r₃ : List Char} {x' : Char}
    {p : Char → Bool} {sep : List Char → Option (List Char)} (hopen : Opening x' more p sep)
    (hslots : Slots x slots) (hws : ∀ c ∈ ws, isSpace c = true)
    (hcs : cs <:+ schema ++ '.' :: (table ++ (ws ++ (x' :: more ++ slotsText slots))))
    (hrel : relation cs = some ((schema, table), r₁)) (hsep : sep r₁ = some r₂)
    (hreads : Reads slots r₂ r₃) (hend : ¬ Late (lastCore slots) r₃) :
    (Plain schema ∧ Plain table ∧ String.ofList schema ∉ notColId) ∧
      ∀ s ∈ slots, '"' ∉ s.name := by
  have hgap : Gap ws (x' :: more ++ slotsText slots) := ⟨hws, hopen.solid⟩
  rcases relation_in_step_or_late hgap hcs hrel with ⟨rfl, hplain⟩ | hlate
  · rw [hopen.leads hslots, Option.some.injEq] at hsep
    subst hsep
    rcases hreads.in_step_or_late hslots with ⟨-, hnames⟩ | hlate
    · exact ⟨hplain, hnames⟩
    · exact absurd hlate hend
  · obtain ⟨y, a, rfl, hy, hsuffix⟩ := hopen.first _ _ hsep
    exact absurd (Reads.late hslots hlate hy hopen.more_ne hopen.quote_ne hsuffix hreads) hend

end

/-! ## What leads to the first name -/

/-- A keyword does, if its first letter is nowhere else in it. -/
theorem opening_keyword {word : String} {x : Char} {letters : List Char} {first : Char}
    (hbare : Bare (x :: letters))
    (hword : clip 63 ((x :: letters).map Char.toLower) = word.toList)
    (hfirst : word.toList.head? = some first)
    (hmore : (letters ++ [' ']).any (fun c => c.toLower = first) = false)
    (hquote : decide ('"'.toLower = first) = false) :
    Opening x (letters ++ [' ']) (fun c => c.toLower = first) (keyword word) := by
  refine ⟨hbare.solid [], fun rest => ?_, fun cs cs' h => ?_, fun c hc => ?_, hquote⟩
  · have hread : keyword word (x :: letters ++ ' ' :: '"' :: rest) = some ('"' :: rest) :=
      keyword_in_step (x :: letters) hbare hword
    simpa using hread
  · obtain ⟨y, a, rfl, hsuffix, hy⟩ := keyword_spec h
    rw [hfirst, Option.some.injEq] at hy
    exact ⟨y, a, rfl, by simp [hy], hsuffix⟩
  · exact Bool.eq_false_iff.mpr (List.any_eq_false.mp hmore c hc)

/-- A parenthesis leads to the first name, too: it is a single character and needs no word to
end before it. -/
theorem opening_paren : Opening '(' [] (fun c => c = '(') (punct '(') := by
  refine ⟨by decide, fun rest => ?_, fun cs cs' h => ?_, by simp, by decide⟩
  · rw [List.cons_append, List.nil_append, punct, if_pos rfl,
      blanks_cons (by decide)]
  · obtain ⟨a, rfl, ha⟩ := punct_spec h
    exact ⟨'(', a, rfl, by decide, blanks_suffix ha⟩

end WalStream.Lib.Sql
