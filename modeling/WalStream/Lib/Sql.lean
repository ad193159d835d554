/-
Reading SQL the way PostgreSQL does: blanks and comments, identifiers and keywords.

A reader takes the text from where a token starts and returns what it read with the text
from where the next one starts. An identifier without quotes is folded to lower case and ends
where its characters end; one in quotes is taken as it is, with two quotes for one; one after
`U&` may have its characters by number. All are cut off at 63 bytes. The database's encoding
is UTF-8, and the version is 16. Of `U&` only the default escape character is here.

Nothing here names a particular program.
-/
import WalStream.Lib.DateTime
import WalStream.Lib.Lists
import Mathlib.Algebra.GroupWithZero.Nat

set_option autoImplicit false

namespace WalStream.Lib.Sql

/-! ## Blanks and comments

Comments nest, and one that is not closed is an error of the whole text. The reader goes along
the characters, with the depth as its state. -/

/-- `space` -/
def isSpace (c : Char) : Bool :=
  c = ' ' || c = '\t' || c = '\n' || c = '\r' || c = '\x0c'

/-- Where in a text of blanks and comments the reader is. -/
inductive Mode
  /-- Inside so many comments. -/
  | inside (depth : Nat)
  /-- Before the second character of a mark after which it is inside so many. -/
  | mark (depth : Nat)
  /-- In a comment up to the end of the line. -/
  | line

/-- What follows the blanks and comments; `none` if a comment does not end. -/
def skip : Mode → List Char → Option (List Char)
  | .inside (_ + 1), [] => none
  | _, [] => some []
  | .inside 0, c :: cs =>
      if isSpace c then skip (.inside 0) cs
      else if c = '-' ∧ cs.head? = some '-' then skip .line cs
      else if c = '/' ∧ cs.head? = some '*' then skip (.mark 1) cs
      else some (c :: cs)
  | .inside (depth + 1), c :: cs =>
      -- comments nest
      if c = '*' ∧ cs.head? = some '/' then skip (.mark depth) cs
      else if c = '/' ∧ cs.head? = some '*' then skip (.mark (depth + 2)) cs
      else skip (.inside (depth + 1)) cs
  | .mark depth, _ :: cs => skip (.inside depth) cs
  | .line, c :: cs => if c = '\n' ∨ c = '\r' then skip (.inside 0) cs else skip .line cs

/-- What follows blanks and comments, outside of any. -/
def blanks (cs : List Char) : Option (List Char) := skip (.inside 0) cs

/-! ## Identifiers

An identifier is a bare word, which is folded to lower case, a quoted one, or a quoted one with
escapes; each is cut to 63 bytes after that. -/

/-- `ident_start` -/
def identStart (c : Char) : Bool := c.isAlpha || c = '_' || 128 ≤ c.toNat

/-- `ident_cont` -/
def identCont (c : Char) : Bool := identStart c || c.isDigit || c = '$'

/-- The length in bytes. -/
def byteLength (cs : List Char) : Nat := (cs.map Char.utf8Size).sum

/-- The longest first part of so many bytes. -/
def clip : Nat → List Char → List Char
  | _, [] => []
  | bytes, c :: cs => if c.utf8Size ≤ bytes then c :: clip (bytes - c.utf8Size) cs else []

/-- The body of a quoted identifier and what follows the closing quote. `pending` says that
the last character was a quote, which another one makes part of the body. -/
def quotedBody : (pending : Bool) → List Char → Option (List Char × List Char)
  | false, [] => none
  | true, [] => some ([], [])
  | false, c :: cs =>
      if c = '"' then quotedBody true cs
      else (quotedBody false cs).map fun r => (c :: r.1, r.2)
  | true, c :: cs =>
      if c = '"' then (quotedBody false cs).map fun r => (c :: r.1, r.2)
      else some ([], c :: cs)

/-- A character as it stands in a body after `U&`: itself, or its number. -/
inductive Piece
  | char (c : Char)
  | code (n : Nat)

def hexDigit (c : Char) : Option Nat :=
  if c.isDigit then some (c.toNat - 48)
  else if 'a' ≤ c ∧ c ≤ 'f' then some (c.toNat - 87)
  else if 'A' ≤ c ∧ c ≤ 'F' then some (c.toNat - 55)
  else none

/-- Where in an escape the reader is. -/
inductive Escape
  | outside
  /-- After the backslash. -/
  | begun
  /-- Before the last `rest + 1` digits of a number, `n` being that of the digits so far. -/
  | digits (rest n : Nat)

/-- The pieces of a body, with the escapes `\\`, `\XXXX` and `\+XXXXXX`. -/
def pieces : Escape → List Char → Option (List Piece)
  | .outside, [] => some []
  | .begun, [] => none
  | .digits _ _, [] => none
  | .outside, c :: cs =>
      if c = '\\' then pieces .begun cs else (pieces .outside cs).map (.char c :: ·)
  | .begun, c :: cs =>
      if c = '\\' then (pieces .outside cs).map (.char c :: ·)
      else if c = '+' then pieces (.digits 5 0) cs
      else (hexDigit c).bind fun d => pieces (.digits 2 d) cs
  | .digits rest n, c :: cs =>
      (hexDigit c).bind fun d =>
        if rest = 0 then (pieces .outside cs).map (.code (16 * n + d) :: ·)
        else pieces (.digits (rest - 1) (16 * n + d)) cs

/-- The characters. Two numbers may be the two halves of one; `half` is the first of them. -/
def decode : (half : Option Nat) → List Piece → Option (List Char)
  | none, [] => some []
  | some _, [] => none
  | none, .char c :: ps => (decode none ps).map (c :: ·)
  | some _, .char _ :: _ => none
  | none, .code n :: ps =>
      if 0xD800 ≤ n ∧ n < 0xDC00 then decode (some n) ps
      else if n ≠ 0 ∧ n.isValidChar then (decode none ps).map (Char.ofNat n :: ·)
      else none
  | some n, .code m :: ps =>
      if 0xDC00 ≤ m ∧ m < 0xE000 then
        (decode none ps).map (Char.ofNat (0x10000 + (n - 0xD800) * 0x400 + (m - 0xDC00)) :: ·)
      else none

/-- An identifier or a keyword. -/
structure Word where
  quoted : Bool
  name : List Char
deriving DecidableEq

/-- A word, and what follows it immediately. -/
def readWord : List Char → Option (Word × List Char)
  | [] => none
  | c :: cs =>
      if c = '"' then
        (quotedBody false cs).bind fun r =>
          if r.1 = [] then none else some (⟨true, clip 63 r.1⟩, r.2)
      else if (c = 'U' ∨ c = 'u') ∧ cs.take 2 = ['&', '"'] then
        (quotedBody false (cs.drop 2)).bind fun r =>
          if r.1 = [] then none
          else ((pieces .outside r.1).bind (decode none)).map fun name => (⟨true, clip 63 name⟩, r.2)
      else if identStart c then
        some (⟨false, clip 63 (((c :: cs).takeWhile identCont).map Char.toLower)⟩,
          (c :: cs).dropWhile identCont)
      else none

/-! ## What is read is a first part of the text

Readers return what is left of the text, and it is always an end of it. So a reader that goes
too far cannot come back. -/

/-- Skipping leaves an end of the text. That every reader does is all that the results on
misread texts need to know of most of them. -/
theorem skip_suffix {m : Mode} {cs r : List Char} (h : skip m cs = some r) : r <:+ cs := by
  induction cs generalizing m with
  | nil =>
      cases m with
      | inside depth =>
          cases depth with
          | zero => simp_all [skip]
          | succ depth => simp [skip] at h
      | _ => simp_all [skip]
  | cons c cs ih =>
      have hdrop : ∀ {m' : Mode}, skip m' cs = some r → r <:+ c :: cs :=
        fun h' => (ih h').trans (List.suffix_cons c cs)
      cases m with
      | inside depth =>
          cases depth with
          | zero =>
              simp only [skip] at h
              split at h
              · exact hdrop h
              · split at h
                · exact hdrop h
                · split at h
                  · exact hdrop h
                  · cases h
                    exact List.suffix_refl _
          | succ depth =>
              simp only [skip] at h
              split at h
              · exact hdrop h
              · split at h
                · exact hdrop h
                · exact hdrop h
      | mark depth => exact hdrop h
      | line =>
          simp only [skip] at h
          split at h
          · exact hdrop h
          · exact hdrop h

/-- So does skipping blanks where no comment is open. -/
theorem blanks_suffix {cs r : List Char} (h : blanks cs = some r) : r <:+ cs := skip_suffix h

/-- Blanks are skipped. -/
theorem blanks_append {ws : List Char} (h : ∀ c ∈ ws, isSpace c = true) (cs : List Char) :
    blanks (ws ++ cs) = blanks cs := by
  induction ws with
  | nil => rfl
  | cons w ws ih =>
      rw [List.cons_append, blanks, skip, if_pos (h w (List.mem_cons_self ..))]
      exact ih fun c hc => h c (List.mem_cons_of_mem w hc)

/-- A character that starts a token is not. -/
theorem blanks_cons {c : Char} (h : isSpace c = false ∧ c ≠ '-' ∧ c ≠ '/') (cs : List Char) :
    blanks (c :: cs) = some (c :: cs) := by
  simp [blanks, skip, h.1, h.2.1, h.2.2]

/-- The length with the quotes doubled. -/
def cost (cs : List Char) : Nat := cs.length + cs.count '"'

/-- One character more, a quote counting twice. -/
theorem cost_cons (c : Char) (cs : List Char) :
    cost (c :: cs) = cost cs + (if c = '"' then 2 else 1) := by
  unfold cost
  rw [List.length_cons, List.count_cons]
  by_cases hc : c = '"'
  · simp [hc]
    omega
  · simp [hc]
    omega

/-- The cost is the length at least. -/
theorem length_le_cost (cs : List Char) : cs.length ≤ cost cs := Nat.le_add_right ..

/-- A quoted body takes its length with the quotes doubled, and the closing quote. -/
theorem quotedBody_spec {pending : Bool} {cs body rest : List Char}
    (h : quotedBody pending cs = some (body, rest)) :
    ∃ raw, cs = raw ++ rest ∧ raw.length + pending.toNat = cost body + 1 ∧
      (if pending then '"' :: raw else raw).getLast? = some '"' := by
  induction cs generalizing pending body with
  | nil =>
      cases pending with
      | false => cases h
      | true =>
          cases h
          exact ⟨[], rfl, rfl, rfl⟩
  -- `pending` stands for a quote that has been read and not yet counted
  | cons c cs ih =>
      cases pending with
      | false =>
          simp only [quotedBody] at h
          split at h
          · next hc =>
              subst hc
              obtain ⟨raw, rfl, hlen, hlast⟩ := ih h
              exact ⟨'"' :: raw, rfl, by simpa using hlen, hlast⟩
          · next hc =>
              simp only [Option.map_eq_some_iff, Prod.mk.injEq] at h
              obtain ⟨⟨body', rest'⟩, hbody, rfl, rfl⟩ := h
              obtain ⟨raw, rfl, hlen, hlast⟩ := ih hbody
              refine ⟨c :: raw, rfl, ?_, ?_⟩
              · simp only [Bool.toNat_false, List.length_cons, cost_cons, if_neg hc] at hlen ⊢
                omega
              · simp only [Bool.false_eq_true, if_false] at hlast ⊢
                rw [List.getLast?_cons, hlast]
                rfl
      | true =>
          simp only [quotedBody] at h
          split at h
          · next hc =>
              subst hc
              simp only [Option.map_eq_some_iff, Prod.mk.injEq] at h
              obtain ⟨⟨body', rest'⟩, hbody, rfl, rfl⟩ := h
              obtain ⟨raw, rfl, hlen, hlast⟩ := ih hbody
              refine ⟨'"' :: raw, rfl, ?_, ?_⟩
              · simp only [Bool.toNat_false, Bool.toNat_true, List.length_cons, cost_cons,
                  if_true] at hlen ⊢
                omega
              · simp only [Bool.false_eq_true, if_false, if_true] at hlast ⊢
                rw [List.getLast?_cons_cons, List.getLast?_cons, hlast]
                rfl
          · -- the quote before was the closing one
            cases h
            exact ⟨[], rfl, rfl, rfl⟩

/-- A body without quotes ends at the first. -/
theorem quotedBody_append {name : List Char} (h : '"' ∉ name) {rest : List Char}
    (hrest : rest.head? ≠ some '"') :
    quotedBody false (name ++ '"' :: rest) = some (name, rest) := by
  induction name with
  | nil =>
      cases rest with
      | nil => rfl
      | cons c rest =>
          have hc : c ≠ '"' := fun hc => hrest (congrArg some hc)
          simp [quotedBody, hc]
  | cons c name ih =>
      rw [List.mem_cons, not_or] at h
      rw [List.cons_append, quotedBody, if_neg (Ne.symm h.1), ih h.2]
      rfl

/-! ## Names

How long a text must be to be read as a given name. A quote in a name takes two characters, an
escape more than the character it stands for, and cutting only ever makes a name shorter; so the
length of a text bounds the names it can be read as. -/

/-- Cutting leaves a first part. -/
theorem clip_first (bytes : Nat) (cs : List Char) : clip bytes cs <+: cs := by
  induction cs generalizing bytes with
  | nil => exact List.prefix_refl _
  | cons c cs ih =>
      rw [clip]
      split
      · exact List.cons_prefix_cons.mpr ⟨rfl, ih _⟩
      · exact List.nil_prefix

/-- And a name that is short enough as it is. -/
theorem clip_of_le {bytes : Nat} {cs : List Char} (h : byteLength cs ≤ bytes) :
    clip bytes cs = cs := by
  induction cs generalizing bytes with
  | nil => rfl
  | cons c cs ih =>
      have hsum : byteLength (c :: cs) = c.utf8Size + byteLength cs := rfl
      rw [hsum] at h
      rw [clip, if_pos (by omega), ih (by omega)]

/-- A first part costs no more, so cutting a name never makes up for the room its text took. -/
theorem cost_le_of_first {cs ds : List Char} (h : cs <+: ds) : cost cs ≤ cost ds :=
  Nat.add_le_add h.length_le (h.sublist.count_le _)

/-- What a piece takes: a quote two characters, a number at least as many. -/
def Piece.cost : Piece → Nat
  | .char c => if c = '"' then 2 else 1
  | .code _ => 2

/-- Every character costs one at least, -/
theorem cost_lt_cons (c : Char) (cs : List Char) : cost cs + 1 ≤ cost (c :: cs) := by
  rw [cost_cons]
  split
  · omega
  · omega

/-- What an escape has taken so far. -/
def Escape.taken : Escape → Nat
  | .outside => 0
  | _ => 1

/-- The pieces of a body take no more than the body, by induction along the reader of escapes.
An escape is longer than the character it stands for, which leaves room for a character that is
a quote. -/
theorem pieces_cost {e : Escape} {cs : List Char} {ps : List Piece} (h : pieces e cs = some ps) :
    (ps.map Piece.cost).sum ≤ e.taken + cost cs := by
  induction cs generalizing e ps with
  | nil =>
      cases e with
      | outside =>
          cases h
          exact Nat.zero_le _
      | _ => cases h
  | cons c cs ih =>
      -- what the escape has taken is added to the rest of the body
      have hcons := cost_lt_cons c cs
      cases e with
      | outside =>
          simp only [pieces] at h
          split at h
          · have := ih h
            simp only [Escape.taken] at this ⊢
            omega
          · simp only [Option.map_eq_some_iff] at h
            obtain ⟨ps', hps', rfl⟩ := h
            have := ih hps'
            rw [cost_cons]
            simp only [List.map_cons, List.sum_cons, Piece.cost, Escape.taken] at this ⊢
            omega
      | begun =>
          simp only [pieces] at h
          split at h
          · next hc =>
              simp only [Option.map_eq_some_iff] at h
              obtain ⟨ps', hps', rfl⟩ := h
              have := ih hps'
              -- a doubled escape stands for itself
              have hone : (Piece.char c).cost = 1 := by rw [hc]; rfl
              simp only [List.map_cons, List.sum_cons, hone, Escape.taken] at this ⊢
              omega
          · split at h
            · have := ih h
              simp only [Escape.taken] at this ⊢
              omega
            · simp only [Option.bind_eq_some_iff] at h
              obtain ⟨d, -, h⟩ := h
              have := ih h
              simp only [Escape.taken] at this ⊢
              omega
      | digits rest n =>
          -- the last digit gives the number, any other one more digit taken
          simp only [pieces, Option.bind_eq_some_iff] at h
          obtain ⟨d, -, h⟩ := h
          split at h
          · simp only [Option.map_eq_some_iff] at h
            obtain ⟨ps', hps', rfl⟩ := h
            have := ih hps'
            simp only [List.map_cons, List.sum_cons, Piece.cost, Escape.taken] at this ⊢
            omega
          · have := ih h
            simp only [Escape.taken] at this ⊢
            omega

/-- and two at most. -/
theorem cost_cons_le (c : Char) (cs : List Char) : cost (c :: cs) ≤ cost cs + 2 := by
  rw [cost_cons]
  split
  · omega
  · omega

/-- Nor does the name that is made of them. Two numbers may be halves of one character, and that
is never more than the two together. -/
theorem decode_cost {half : Option Nat} {ps : List Piece} {name : List Char}
    (h : decode half ps = some name) : cost name ≤ (ps.map Piece.cost).sum := by
  induction ps generalizing half name with
  | nil =>
      cases half with
      | none =>
          cases h
          exact Nat.le_refl _
      | some n => cases h
  | cons p ps ih =>
      cases p with
      -- a character cannot come between the two halves of one
      | char c =>
          cases half with
          | none =>
              simp only [decode, Option.map_eq_some_iff] at h
              obtain ⟨name', hname', rfl⟩ := h
              have := ih hname'
              rw [cost_cons]
              simp only [List.map_cons, List.sum_cons, Piece.cost]
              omega
          | some n => cases h
      | code n =>
          -- a number costs two at least, and the character it makes two at most
          have hmore : ∀ {c : Char} {name' : List Char}, decode none ps = some name' →
              cost (c :: name') ≤ ((Piece.code n :: ps).map Piece.cost).sum := by
            intro c name' hname'
            have := ih hname'
            have := cost_cons_le c name'
            simp only [List.map_cons, List.sum_cons, Piece.cost]
            omega
          cases half with
          | none =>
              simp only [decode] at h
              split at h
              · have := ih h
                simp only [List.map_cons, List.sum_cons, Piece.cost]
                omega
              · simp only [Option.ite_none_right_eq_some, Option.map_eq_some_iff] at h
                obtain ⟨-, name', hname', rfl⟩ := h
                exact hmore hname'
          | some m =>
              simp only [decode, Option.ite_none_right_eq_some, Option.map_eq_some_iff] at h
              obtain ⟨-, name', hname', rfl⟩ := h
              exact hmore hname'

/-! ## Words -/

/-- The text is one of an identifier without quotes. -/
def Bare (raw : List Char) : Prop :=
  raw.head?.any identStart = true ∧ ∀ c ∈ raw, identCont c = true

instance (raw : List Char) : Decidable (Bare raw) :=
  @instDecidableAnd _ _ inferInstance (List.decidableBAll _ raw)

/-- What the text of a word says of its name. -/
structure WordText (word : Word) (raw : List Char) : Prop where
  ends : ∃ front last, raw = front ++ [last] ∧ isSpace last = false
  /-- Without quotes the text is the name, but for the case. -/
  bare : word.quoted = false → Bare raw ∧ word.name = clip 63 (raw.map Char.toLower)
  /-- Two quotes, and two for each in the name. -/
  quotes : word.quoted = true → cost word.name + 2 ≤ raw.length

/-- No character of a word is a blank, so a word ends where the blanks begin. -/
theorem isSpace_of_identCont {c : Char} (h : identCont c = true) : isSpace c = false := by
  by_contra hspace
  simp only [isSpace, Bool.not_eq_false, Bool.or_eq_true, decide_eq_true_eq] at hspace
  obtain (((rfl | rfl) | rfl) | rfl) | rfl := hspace
  all_goals exact absurd h (by decide)

/-- The text of a quoted word whose name costs no more than the body. -/
theorem wordText_of_body {front cs name body rest : List Char}
    (h : quotedBody false cs = some (body, rest)) (hfront : front ≠ [])
    (hname : cost name ≤ cost body) :
    ∃ raw, front ++ cs = raw ++ rest ∧ WordText ⟨true, clip 63 name⟩ raw := by
  obtain ⟨raw, rfl, hlen, hlast⟩ := quotedBody_spec h
  simp only [Bool.false_eq_true, if_false, Bool.toNat_false, Nat.add_zero] at hlen hlast
  obtain ⟨inner, rfl⟩ := List.getLast?_eq_some_iff.mp hlast
  refine ⟨front ++ (inner ++ ['"']), by simp, ⟨⟨front ++ inner, '"', by simp, rfl⟩, ?_, ?_⟩⟩
  · intro hquoted
    cases hquoted
  · intro _
    have hclip := cost_le_of_first (clip_first 63 name)
    have hpos : 0 < front.length := List.length_pos_of_ne_nil hfront
    simp only [List.length_append, List.length_singleton] at hlen ⊢
    omega

/-- **What a word is read from.** -/
theorem readWord_spec {cs rest : List Char} {word : Word} (h : readWord cs = some (word, rest)) :
    ∃ raw, cs = raw ++ rest ∧ WordText word raw := by
  cases cs with
  | nil => cases h
  | cons c cs =>
      rw [readWord] at h
      split at h
      · simp only [Option.bind_eq_some_iff, Option.ite_none_left_eq_some, Option.some.injEq,
          Prod.mk.injEq] at h
        obtain ⟨⟨body, rest'⟩, hbody, -, rfl, rfl⟩ := h
        -- in quotes
        have hfront : [c] ≠ [] := List.cons_ne_nil _ _
        exact wordText_of_body hbody hfront (Nat.le_refl _)
      · split at h
        · next hU =>
            simp only [Option.bind_eq_some_iff, Option.ite_none_left_eq_some,
              Option.map_eq_some_iff, Prod.mk.injEq] at h
            obtain ⟨⟨body, rest'⟩, hbody, -, name, ⟨ps, hps, hname⟩, rfl, rfl⟩ := h
            -- in quotes with escapes, which never make the name cost more than the body
            have hcost : cost name ≤ cost body := by
              have := Nat.le_trans (decode_cost hname) (pieces_cost hps)
              simpa [Escape.taken] using this
            have hcs : c :: cs = (c :: ['&', '"']) ++ cs.drop 2 := by
              rw [← hU.2, List.cons_append, List.take_append_drop]
            rw [hcs]
            exact wordText_of_body hbody (List.cons_ne_nil _ _) hcost
        · split at h
          · next hstart =>
              simp only [Option.some.injEq, Prod.mk.injEq] at h
              obtain ⟨rfl, rfl⟩ := h
              -- without quotes: as far as its characters go
              have hcont : identCont c = true := by simp [identCont, hstart]
              have hraw : (c :: cs).takeWhile identCont = c :: cs.takeWhile identCont := by
                rw [List.takeWhile_cons_of_pos hcont]
              have hall : ∀ d ∈ (c :: cs).takeWhile identCont, identCont d = true :=
                List.all_eq_true.mp List.all_takeWhile
              refine ⟨_, (List.takeWhile_append_dropWhile).symm, ?_, ?_, ?_⟩
              · have hne : (c :: cs).takeWhile identCont ≠ [] := by
                  rw [hraw]
                  exact List.cons_ne_nil _ _
                exact ⟨_, _, (List.dropLast_append_getLast hne).symm,
                  isSpace_of_identCont (hall _ (List.getLast_mem hne))⟩
              · refine fun _ => ⟨⟨?_, hall⟩, rfl⟩
                rw [hraw]
                exact hstart
              · intro hquoted
                cases hquoted
          · cases h

/-- No word is empty. -/
theorem WordText.ne_nil {word : Word} {raw : List Char} (h : WordText word raw) : raw ≠ [] := by
  obtain ⟨front, last, rfl, -⟩ := h.ends
  simp

/-- A name takes at least the room of its letters, and a quoted one two more. -/
theorem WordText.room {word : Word} {raw : List Char} (h : WordText word raw) :
    word.name.length + (if word.quoted then 2 else 0) ≤ raw.length := by
  cases hquoted : word.quoted with
  | true =>
      have := h.quotes hquoted
      have := length_le_cost word.name
      simp only [if_true]
      omega
  | false =>
      rw [(h.bare hquoted).2]
      simpa using (clip_first 63 (raw.map Char.toLower)).length_le

/-- A text that is no more than the name is the name, in lower case. -/
theorem WordText.eq_name {word : Word} {raw : List Char} (h : WordText word raw)
    (hlen : raw.length ≤ word.name.length) :
    Bare raw ∧ word.quoted = false ∧ word.name = raw.map Char.toLower := by
  have hroom := h.room
  cases hquoted : word.quoted with
  | true =>
      rw [hquoted, if_pos rfl] at hroom
      omega
  | false =>
      obtain ⟨hbare, hname⟩ := h.bare hquoted
      refine ⟨hbare, rfl, ?_⟩
      rw [hname] at hlen ⊢
      refine (clip_first 63 _).eq_of_length_le ?_
      rwa [List.length_map]

/-- A word without quotes ends where its characters end. -/
theorem readWord_bare {raw rest : List Char} (h : Bare raw)
    (hrest : ∀ d ∈ rest.head?, identCont d = false ∧ d ≠ '&') :
    readWord (raw ++ rest) = some (⟨false, clip 63 (raw.map Char.toLower)⟩, rest) := by
  obtain ⟨hstart, hall⟩ := h
  cases raw with
  | nil => cases hstart
  | cons c cs =>
      have hc : identStart c = true := hstart
      have hquote : c ≠ '"' := by
        rintro rfl
        exact absurd hc (by decide)
      have hunicode : ¬ ((c = 'U' ∨ c = 'u') ∧ (cs ++ rest).take 2 = ['&', '"']) := by
        rintro ⟨-, htake⟩
        -- neither a letter nor what follows the word is that sign
        cases cs with
        | nil =>
            cases rest with
            | nil => cases htake
            | cons d ds => exact (hrest d rfl).2 (List.cons.inj htake).1
        | cons d ds =>
            have hd := hall d (by simp)
            rw [(List.cons.inj htake).1] at hd
            exact absurd hd (by decide)
      have hstops : Stops identCont rest := fun d hd => (hrest d hd).1
      have htake := takeWhile_front hall hstops
      have hdrop := dropWhile_front hall hstops
      rw [List.cons_append] at htake hdrop ⊢
      rw [readWord, if_neg hquote, if_neg hunicode, if_pos hc, htake, hdrop]

/-- A quoted name without a quote in it is read as it is. -/
theorem readWord_quoted {name rest : List Char} (hne : name ≠ []) (hname : '"' ∉ name)
    (hrest : rest.head? ≠ some '"') :
    readWord ('"' :: (name ++ '"' :: rest)) = some (⟨true, clip 63 name⟩, rest) := by
  rw [readWord, if_pos rfl, quotedBody_append hname hrest, Option.bind_some, if_neg hne]

end WalStream.Lib.Sql
