/-
The numbers of a language with one type for all of them, and the texts they are read from.

A number is a rational, an infinity or not a number. The arithmetic is the usual one on
rationals, and on the rest as IEEE 754 has it: what has no value is not a number, and every
comparison with that is false. Rationals are exact here. Rounding them is a function of the
exact value, so texts with equal values are read as equal numbers, and the sign of zero is
not kept.

`parseFloat` reads the longest beginning that is a decimal literal, and anything without one
is not a number. A `Numeral` is a decimal literal with its spelling.

Nothing here names a particular program.
-/
import WalStream.Lib.Lists
import Mathlib.Data.Rat.Floor
import Mathlib.Algebra.Order.Field.Basic

set_option autoImplicit false

namespace WalStream.Lib

/-! ## Numbers -/

/-- A rational, an infinity, or not a number. -/
inductive Number
  | nan
  | inf (negative : Bool)
  | finite (q : ℚ)
deriving DecidableEq

namespace Number

protected def neg : Number → Number
  | nan => nan
  | inf negative => inf !negative
  | finite q => finite (-q)

protected def add : Number → Number → Number
  | finite p, finite q => finite (p + q)
  | inf negative, finite _ => inf negative
  | finite _, inf negative => inf negative
  | inf a, inf b => if a = b then inf a else nan
  | _, _ => nan

protected def mul : Number → Number → Number
  | finite p, finite q => finite (p * q)
  | inf negative, finite q => if q = 0 then nan else inf (negative ^^ decide (q < 0))
  | finite q, inf negative => if q = 0 then nan else inf (negative ^^ decide (q < 0))
  | inf a, inf b => inf (a ^^ b)
  | _, _ => nan

/-- A zero divisor counts as positive. -/
protected def div : Number → Number → Number
  | finite p, finite q =>
      if q ≠ 0 then finite (p / q) else if p = 0 then nan else inf (decide (p < 0))
  | inf negative, finite q => inf (negative ^^ decide (q < 0))
  | finite _, inf _ => finite 0
  | _, _ => nan

instance : Neg Number := ⟨Number.neg⟩
instance : Add Number := ⟨Number.add⟩
instance : Sub Number := ⟨fun x y => x + -y⟩
instance : Mul Number := ⟨Number.mul⟩
instance : Div Number := ⟨Number.div⟩

/-- `x <= y`. -/
def le : Number → Number → Bool
  | finite p, finite q => decide (p ≤ q)
  | inf negative, finite _ => negative
  | finite _, inf negative => !negative
  | inf a, inf b => a || !b
  | _, _ => false

/-- `x < y`. -/
def lt : Number → Number → Bool
  | finite p, finite q => decide (p < q)
  | inf negative, finite _ => negative
  | finite _, inf negative => !negative
  | inf a, inf b => a && !b
  | _, _ => false

def isFinite : Number → Bool
  | finite _ => true
  | _ => false

/-- `x || 0`. -/
def orZero : Number → Number
  | nan => finite 0
  | x => x

variable (p q : ℚ)

/-- On rationals the arithmetic is that of the rationals. These are the rules by which `simp`
leaves numbers behind, so that what is to be shown is about rationals. -/
@[simp] theorem finite_add : finite p + finite q = finite (p + q) := rfl

@[simp] theorem finite_sub : finite p - finite q = finite (p - q) := by
  change finite (p + -q) = finite (p - q)
  rw [sub_eq_add_neg]

@[simp] theorem finite_mul : finite p * finite q = finite (p * q) := rfl

/-- Division has a rational value only by a number that is not zero. -/
@[simp] theorem finite_div {q : ℚ} (h : q ≠ 0) : finite p / finite q = finite (p / q) :=
  if_pos h

@[simp] theorem finite_le : (finite p).le (finite q) = decide (p ≤ q) := rfl

@[simp] theorem finite_lt : (finite p).lt (finite q) = decide (p < q) := rfl

@[simp] theorem isFinite_finite : (finite q).isFinite = true := rfl

@[simp] theorem orZero_finite : (finite q).orZero = finite q := rfl

/-- What is not a number stays so, whatever it is subtracted from or has subtracted from it. -/
@[simp] theorem nan_sub (x : Number) : nan - x = nan := by
  cases x <;> rfl

@[simp] theorem sub_nan (x : Number) : x - nan = nan := by
  cases x <;> rfl

end Number

/-! ## Reading a number -/

/-- A sign in front, if there is one (`true` is a minus), and what follows it. -/
def takeSign : List Char → Bool × List Char
  | '+' :: cs => (false, cs)
  | '-' :: cs => (true, cs)
  | cs => (false, cs)

/-- The number a list of digits stands for. -/
def digitsNumber (ds : List Char) : ℕ := ds.foldl (fun n c => 10 * n + (c.toNat - 48)) 0

/-- `-` or nothing, `whole.fraction`, and a power of ten. -/
def decimalValue (negative : Bool) (whole fraction : List Char) (exponent : ℤ) : ℚ :=
  let digits : ℚ := digitsNumber (whole ++ fraction)
  (if negative then -digits else digits) * 10 ^ (exponent - fraction.length)

/-- The exponent in front; without digits there is none. -/
def takeExponent : List Char → ℤ
  | [] => 0
  | c :: cs =>
      if c = 'e' ∨ c = 'E' then
        let (negative, cs) := takeSign cs
        let n : ℤ := digitsNumber (cs.takeWhile Char.isDigit)
        if negative then -n else n
      else 0

/-- The digits behind a point in front, and what follows them. -/
def takeFraction : List Char → List Char × List Char
  | '.' :: cs => (cs.takeWhile Char.isDigit, cs.dropWhile Char.isDigit)
  | cs => ([], cs)

/-- White space and line terminators. -/
def isSpace (c : Char) : Bool :=
  [0x09, 0x0a, 0x0b, 0x0c, 0x0d, 0x20, 0xa0, 0x1680, 0x2000, 0x2001, 0x2002, 0x2003, 0x2004,
    0x2005, 0x2006, 0x2007, 0x2008, 0x2009, 0x200a, 0x2028, 0x2029, 0x202f, 0x205f, 0x3000,
    0xfeff].contains c.toNat

/-- `parseFloat`: white space in front is passed over, and then the longest beginning that is a
literal is read. What comes after it is not looked at. -/
def parseFloat (text : List Char) : Number :=
  let (negative, cs) := takeSign (text.dropWhile isSpace)
  if "Infinity".toList.isPrefixOf cs then .inf negative
  else
    let whole := cs.takeWhile Char.isDigit
    let (fraction, rest) := takeFraction (cs.dropWhile Char.isDigit)
    if whole = [] ∧ fraction = [] then .nan
    else .finite (decimalValue negative whole fraction (takeExponent rest))

/-! ## Decimal literals -/

/-- The exponent of a literal. -/
structure Exponent where
  mark : Char
  /-- The sign that is written; `true` is a minus. -/
  sign : Option Bool
  digits : List Char
  mark_eq : mark = 'e' ∨ mark = 'E'
  isDigit : digits.all Char.isDigit = true
  ne_nil : digits ≠ []
deriving DecidableEq

/-- A decimal literal. There is a digit before or behind the point. -/
structure Numeral where
  /-- The sign that is written; `true` is a minus. -/
  sign : Option Bool
  whole : List Char
  /-- The digits behind the point; `none` if there is no point. -/
  fraction : Option (List Char)
  exponent : Option Exponent
  isDigit_whole : whole.all Char.isDigit = true
  isDigit_fraction : (fraction.getD []).all Char.isDigit = true
  ne_nil : whole ≠ [] ∨ fraction.getD [] ≠ []
deriving DecidableEq

def signText : Option Bool → List Char
  | none => []
  | some false => ['+']
  | some true => ['-']

def Exponent.text (e : Exponent) : List Char := e.mark :: (signText e.sign ++ e.digits)

def exponentText : Option Exponent → List Char
  | none => []
  | some e => e.text

def fractionText : Option (List Char) → List Char
  | none => []
  | some ds => '.' :: ds

/-- What follows the sign. -/
def Numeral.unsigned (n : Numeral) : List Char :=
  n.whole ++ (fractionText n.fraction ++ exponentText n.exponent)

/-- The spelling. -/
def Numeral.text (n : Numeral) : List Char := signText n.sign ++ n.unsigned

def Exponent.value (e : Exponent) : ℤ :=
  if e.sign = some true then -(digitsNumber e.digits : ℤ) else digitsNumber e.digits

def Numeral.value (n : Numeral) : ℚ :=
  decimalValue (n.sign = some true) n.whole (n.fraction.getD [])
    ((n.exponent.map Exponent.value).getD 0)

/-- A digit, a point, a sign or the mark of an exponent. -/
def isNumeralChar (c : Char) : Bool :=
  c.isDigit || c = '.' || c = '+' || c = '-' || c = 'e' || c = 'E'

/-! ## Reading a literal -/

/-- The first character is a digit or the point. -/
def Numeric (cs : List Char) : Prop := ∃ c rest, cs = c :: rest ∧ (c.isDigit = true ∨ c = '.')

variable {n : Numeral} {e : Exponent}

/-- The digits of a literal, by their places in it. -/
theorem Numeral.mem_whole {c : Char} (h : c ∈ n.whole) : c.isDigit = true :=
  List.all_eq_true.mp n.isDigit_whole c h

theorem Numeral.mem_fraction {c : Char} (h : c ∈ n.fraction.getD []) : c.isDigit = true :=
  List.all_eq_true.mp n.isDigit_fraction c h

theorem Exponent.mem_digits {c : Char} (h : c ∈ e.digits) : c.isDigit = true :=
  List.all_eq_true.mp e.isDigit c h

/-- Behind its sign a literal begins with a digit or with the point, so a reader that has taken
the sign knows that a literal follows. -/
theorem Numeral.numeric_unsigned (n : Numeral) : Numeric n.unsigned := by
  unfold Numeral.unsigned
  cases hwhole : n.whole with
  | cons c ds =>
      refine ⟨c, _, rfl, Or.inl (Numeral.mem_whole (n := n) ?_)⟩
      rw [hwhole]
      exact List.mem_cons_self ..
  | nil =>
      have hne := n.ne_nil
      cases hfraction : n.fraction with
      | none => simp [hwhole, hfraction] at hne
      | some ds => exact ⟨'.', _, rfl, Or.inr rfl⟩

/-- An exponent has a digit behind its mark and its sign. -/
theorem Exponent.numeric_digits (e : Exponent) : Numeric e.digits := by
  cases hdigits : e.digits with
  | nil => exact absurd hdigits e.ne_nil
  | cons c ds =>
      refine ⟨c, ds, rfl, Or.inl (Exponent.mem_digits (e := e) ?_)⟩
      rw [hdigits]
      exact List.mem_cons_self ..

/-- A digit and the point are no sign. -/
theorem takeSign_signText {cs : List Char} (sign : Option Bool) (h : Numeric cs) :
    takeSign (signText sign ++ cs) = (decide (sign = some true), cs) := by
  obtain ⟨c, rest, rfl, hc⟩ := h
  match sign with
  | some false => rfl
  | some true => rfl
  | none =>
      have hplus : c ≠ '+' := by
        rintro rfl
        simp [Char.isDigit] at hc
      have hminus : c ≠ '-' := by
        rintro rfl
        simp [Char.isDigit] at hc
      simp [signText, takeSign, hplus, hminus]

/-- What follows the digits of a literal is no digit. -/
theorem stops_exponentText (o : Option Exponent) : Stops Char.isDigit (exponentText o) := by
  intro c hc
  cases o with
  | none => cases hc
  | some e =>
      obtain rfl : e.mark = c := by simpa [exponentText, Exponent.text] using hc
      rcases e.mark_eq with h | h
      · rw [h]; rfl
      · rw [h]; rfl

/-- The fraction is read to its end: what follows it is an exponent or nothing, and neither
begins with a digit. -/
theorem takeFraction_text (n : Numeral) :
    takeFraction (fractionText n.fraction ++ exponentText n.exponent) =
      (n.fraction.getD [], exponentText n.exponent) := by
  have hstops := stops_exponentText n.exponent
  cases hfraction : n.fraction with
  | none =>
      -- a mark is no point
      cases hexponent : n.exponent with
      | none => rfl
      | some e =>
          have hmark : e.mark ≠ '.' := by
            rcases e.mark_eq with h | h
            · rw [h]; decide
            · rw [h]; decide
          simp [fractionText, exponentText, Exponent.text, takeFraction, hmark]
  | some ds =>
      have hds : ∀ c ∈ ds, c.isDigit = true := by
        intro c hc
        exact n.mem_fraction (by rw [hfraction]; exact hc)
      simp only [fractionText, List.cons_append, takeFraction, Option.getD_some,
        takeWhile_front hds hstops, dropWhile_front hds hstops]

/-- The exponent is read whole; without one the power of ten is zero. -/
theorem takeExponent_text (o : Option Exponent) :
    takeExponent (exponentText o) = (o.map Exponent.value).getD 0 := by
  cases o with
  | none => rfl
  | some e =>
      have hnumeric := e.numeric_digits
      have htake : e.digits.takeWhile Char.isDigit = e.digits := by
        have hstops : Stops Char.isDigit [] := by simp [Stops]
        have hall := takeWhile_front (fun _ => e.mem_digits) hstops
        rwa [List.append_nil] at hall
      simp [exponentText, Exponent.text, takeExponent, e.mark_eq, takeSign_signText _ hnumeric,
        htake, Exponent.value]

/-- The point and the exponent stop the digits before them. -/
theorem stops_fractionText (n : Numeral) :
    Stops Char.isDigit (fractionText n.fraction ++ exponentText n.exponent) := by
  cases n.fraction with
  | none => exact stops_exponentText n.exponent
  | some ds =>
      intro c hc
      obtain rfl : '.' = c := by simpa [fractionText] using hc
      rfl

/-- The digits before the point, and what follows them. -/
theorem whole_unsigned (n : Numeral) :
    n.unsigned.takeWhile Char.isDigit = n.whole ∧
      n.unsigned.dropWhile Char.isDigit =
        fractionText n.fraction ++ exponentText n.exponent :=
  ⟨takeWhile_front (fun _ => n.mem_whole) (stops_fractionText n),
    dropWhile_front (fun _ => n.mem_whole) (stops_fractionText n)⟩

/-- The characters of a literal. -/
theorem isNumeralChar_of_mem_text {c : Char} (h : c ∈ n.text) : isNumeralChar c = true := by
  have hsign : ∀ (sign : Option Bool), c ∈ signText sign → isNumeralChar c = true := by
    intro sign hc
    match sign with
    | some false => rw [List.mem_singleton.mp hc]; rfl
    | some true => rw [List.mem_singleton.mp hc]; rfl
  have hdigit : c.isDigit = true → isNumeralChar c = true := by
    intro hc
    simp [isNumeralChar, hc]
  simp only [Numeral.text, Numeral.unsigned, List.mem_append] at h
  rcases h with h | h | h | h
  · exact hsign _ h
  · exact hdigit (n.mem_whole h)
  · cases hfraction : n.fraction with
    | none =>
        rw [hfraction] at h
        cases h
    | some ds =>
        rw [hfraction] at h
        rcases List.mem_cons.mp h with rfl | h
        · rfl
        · exact hdigit (n.mem_fraction (by rw [hfraction]; exact h))
  · cases hexponent : n.exponent with
    | none =>
        rw [hexponent] at h
        cases h
    | some e =>
        rw [hexponent] at h
        simp only [exponentText, Exponent.text, List.mem_cons, List.mem_append] at h
        rcases h with rfl | h | h
        · rcases e.mark_eq with h | h
          · rw [h]; rfl
          · rw [h]; rfl
        · exact hsign _ h
        · exact hdigit (e.mem_digits h)

/-- None of them is white space. -/
theorem isSpace_of_isNumeralChar {c : Char} (h : isNumeralChar c = true) :
    isSpace c = false := by
  by_cases hdigit : c.isDigit = true
  · have hbounds : 48 ≤ c.toNat ∧ c.toNat ≤ 57 := by
      simpa [Char.isDigit, UInt32.le_iff_toNat_le] using hdigit
    simp only [isSpace, List.contains_eq_mem, decide_eq_false_iff_not, List.mem_cons,
      List.not_mem_nil, or_false]
    omega
  · simp only [isNumeralChar, hdigit, Bool.false_or, Bool.or_eq_true, decide_eq_true_eq] at h
    rcases h with (((rfl | rfl) | rfl) | rfl) | rfl
    all_goals decide

/-- **Reading a literal.** Every decimal literal is read as its value. -/
theorem parseFloat_text (n : Numeral) : parseFloat n.text = .finite n.value := by
  have hnumeric := n.numeric_unsigned
  have hspace : n.text.dropWhile isSpace = n.text := by
    apply dropWhile_of_stops
    intro c hc
    exact isSpace_of_isNumeralChar (isNumeralChar_of_mem_text (List.mem_of_mem_head? hc))
  have hinf : "Infinity".toList.isPrefixOf n.unsigned = false := by
    obtain ⟨c, rest, heq, hc⟩ := hnumeric
    have hne : 'I' ≠ c := by
      rintro rfl
      simp [Char.isDigit] at hc
    rw [heq, show "Infinity".toList = 'I' :: "nfinity".toList from rfl, List.isPrefixOf_cons_cons,
      beq_false_of_ne hne, Bool.false_and]
  obtain ⟨hwhole, hrest⟩ := whole_unsigned n
  have hne : ¬ (n.whole = [] ∧ n.fraction.getD [] = []) := by
    rintro ⟨hw, hf⟩
    exact n.ne_nil.elim (fun h => h hw) (fun h => h hf)
  unfold parseFloat
  rw [hspace, Numeral.text, takeSign_signText _ hnumeric]
  simp only [hinf, hwhole, hrest, takeFraction_text, if_neg hne, takeExponent_text]
  rfl

end WalStream.Lib
