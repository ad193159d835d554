/-
Dates and times of day, their number, and numbers of a fixed width as text.

The calendar is the proleptic Gregorian one, with the year before 1 numbered 0. A `DateTime`
is what a clock on some wall shows; `micros` is the time since 1970 began on that clock.

Nothing here names a particular program.
-/
import Mathlib.Algebra.Group.Nat.Defs
import Mathlib.Data.List.Basic

set_option autoImplicit false

namespace WalStream.Lib

/-! ## The calendar

Only what comparing two dates needs: how many days a date is from another, and that a date and
its mirror image before year 1 are never close. -/

def isLeap (year : Int) : Bool :=
  year % 4 = 0 && (year % 100 ≠ 0 || year % 400 = 0)

def daysInMonth (year : Int) : Nat → Nat
  | 2 => if isLeap year then 29 else 28
  | 4 | 6 | 9 | 11 => 30
  | _ => 31

theorem daysInMonth_le (year : Int) (month : Nat) : daysInMonth year month ≤ 31 := by
  unfold daysInMonth
  split
  · split
    · decide
    · decide
  all_goals decide

/-- The days from the first of year 1 to the first of the year. -/
def daysBeforeYear (year : Int) : Int :=
  365 * (year - 1) + (year - 1) / 4 - (year - 1) / 100 + (year - 1) / 400

/-- The days of the year before its month. Months are counted from 1. -/
def daysBeforeMonth (year : Int) : Nat → Nat
  | 0 => 0
  | 1 => 0
  | month + 2 => daysBeforeMonth year (month + 1) + daysInMonth year (month + 1)

structure DateTime where
  year : Int
  month : Nat
  day : Nat
  hour : Nat
  minute : Nat
  second : Nat
  microsecond : Nat
deriving DecidableEq

/-- There is such a day, and such a time of day. -/
def DateTime.Exists (t : DateTime) : Prop :=
  1 ≤ t.month ∧ t.month ≤ 12 ∧ 1 ≤ t.day ∧ t.day ≤ daysInMonth t.year t.month ∧
    t.hour < 24 ∧ t.minute < 60 ∧ t.second < 60 ∧ t.microsecond < 1000000

instance (t : DateTime) : Decidable t.Exists := inferInstanceAs (Decidable (_ ∧ _))

/-- The day, counted from 1970-01-01. -/
def DateTime.dayNumber (t : DateTime) : Int :=
  daysBeforeYear t.year + daysBeforeMonth t.year t.month + t.day - 719163

/-- The microseconds of the day. -/
def DateTime.timeOfDay (t : DateTime) : Nat :=
  ((t.hour * 60 + t.minute) * 60 + t.second) * 1000000 + t.microsecond

/-- The microseconds since 1970 began on that clock. -/
def DateTime.micros (t : DateTime) : Int :=
  t.dayNumber * 86400000000 + t.timeOfDay

example : (⟨1970, 1, 1, 0, 0, 0, 0⟩ : DateTime).micros = 0 := by decide

example : (⟨2024, 3, 1, 0, 0, 1, 0⟩ : DateTime).micros = 1709251201000000 := by decide

/-- Two years put a month equally far from their start, but for a leap day. -/
theorem daysBeforeMonth_add (y y' : Int) (month : Nat) :
    daysBeforeMonth y month + (if 2 < month ∧ isLeap y' then 1 else 0)
      = daysBeforeMonth y' month + (if 2 < month ∧ isLeap y then 1 else 0) := by
  match month with
  | 0 => rfl
  | 1 => rfl
  | 2 => rfl
  | 3 =>
      simp only [daysBeforeMonth, daysInMonth]
      cases isLeap y
      · cases isLeap y'
        · rfl
        · rfl
      · cases isLeap y'
        · rfl
        · rfl
  | m + 4 =>
      have ih := daysBeforeMonth_add y y' (m + 3)
      have hday : daysInMonth y (m + 3) = daysInMonth y' (m + 3) := by
        unfold daysInMonth
        split
        · omega
        all_goals rfl
      have hm3 : 2 < m + 3 := by omega
      have hm4 : 2 < m + 4 := by omega
      have hnext : ∀ z, daysBeforeMonth z (m + 4)
          = daysBeforeMonth z (m + 3) + daysInMonth z (m + 3) := fun _ => rfl
      simp only [hm3, hm4, true_and] at ih ⊢
      rw [hnext, hnext, hday]
      omega

theorem daysBeforeMonth_le (y y' : Int) (month : Nat) :
    daysBeforeMonth y' month ≤ daysBeforeMonth y month + 1 := by
  have h := daysBeforeMonth_add y y' month
  split at h
  · omega
  · omega

/-- Between a year and the year as long before year 1 lies a year at least. -/
theorem daysBeforeYear_mirror {year : Int} (h : 1 ≤ year) :
    daysBeforeYear (1 - year) + 365 ≤ daysBeforeYear year := by
  unfold daysBeforeYear
  omega

/-- So the same date of both years is 364 days apart at least. -/
theorem DateTime.micros_mirror {t : DateTime} (h : 1 ≤ t.year) :
    ({ t with year := 1 - t.year } : DateTime).micros + 364 * 86400000000 ≤ t.micros := by
  have hyear := daysBeforeYear_mirror h
  have hmonth := daysBeforeMonth_le t.year (1 - t.year) t.month
  simp only [DateTime.micros, DateTime.dayNumber, DateTime.timeOfDay]
  omega

/-! ## Numbers of a fixed width

A writer and a reader, and that the second undoes the first. Time stamps are texts of such
numbers with single characters in between. -/

/-- The last `width` digits of the number, with zeros in front. -/
def pad : Nat → Nat → List Char
  | 0, _ => []
  | width + 1, n => pad width (n / 10) ++ [Nat.digitChar (n % 10)]

def digitValue (c : Char) : Option Nat := if c.isDigit then some (c.toNat - 48) else none

/-- The number the digits make; `none` if one of them is none. -/
def digitsValue (cs : List Char) : Option Nat :=
  cs.foldlM (fun n c => (digitValue c).map (10 * n + ·)) 0

/-- A number of exactly `width` digits in front, and what follows it. -/
def readNumber (width : Nat) (cs : List Char) : Option (Nat × List Char) :=
  if width ≤ cs.length then (digitsValue (cs.take width)).map fun n => (n, cs.drop width)
  else none

/-- What follows the character, if it is in front. -/
def skipChar (c : Char) : List Char → Option (List Char)
  | d :: cs => if d = c then some cs else none
  | [] => none

@[simp] theorem skipChar_cons (c : Char) (cs : List Char) : skipChar c (c :: cs) = some cs :=
  if_pos rfl

theorem digitChar_spec : ∀ d < 10, (Nat.digitChar d).isDigit = true ∧
    digitValue (Nat.digitChar d) = some d := by decide

@[simp] theorem length_pad (width n : Nat) : (pad width n).length = width := by
  induction width generalizing n with
  | zero => rfl
  | succ width ih => simp [pad, ih]

theorem isDigit_of_mem_pad {width n : Nat} {c : Char} (h : c ∈ pad width n) :
    c.isDigit = true := by
  induction width generalizing n with
  | zero => cases h
  | succ width ih =>
      rcases List.mem_append.mp h with h | h
      · exact ih h
      · rw [List.mem_singleton.mp h]
        exact (digitChar_spec _ (Nat.mod_lt n (by decide))).1

theorem digitsValue_snoc (cs : List Char) {d : Nat} (h : d < 10) :
    digitsValue (cs ++ [Nat.digitChar d]) = (digitsValue cs).map fun n => 10 * n + d := by
  unfold digitsValue
  rw [List.foldlM_append]
  cases List.foldlM (fun n c => (digitValue c).map (10 * n + ·)) 0 cs with
  | none => rfl
  | some n => simp [(digitChar_spec d h).2]

theorem digitsValue_pad {width n : Nat} (h : n < 10 ^ width) :
    digitsValue (pad width n) = some n := by
  induction width generalizing n with
  | zero =>
      obtain rfl : n = 0 := by simpa using h
      rfl
  | succ width ih =>
      have hdiv : n / 10 < 10 ^ width := by
        rw [Nat.pow_succ] at h
        omega
      rw [pad, digitsValue_snoc _ (Nat.mod_lt n (by decide)), ih hdiv, Option.map_some,
        Nat.div_add_mod]

/-- A number written without zeros in front is read back. -/
theorem digitsValue_toDigits (n : Nat) : digitsValue (Nat.toDigits 10 n) = some n := by
  induction n using Nat.strongRecOn with
  | ind n ih =>
      by_cases h : n < 10
      · rw [Nat.toDigits_of_lt_base h]
        have hsnoc := digitsValue_snoc [] h
        rw [List.nil_append] at hsnoc
        rw [hsnoc]
        simp [digitsValue]
      · have hle : 10 ≤ n := Nat.le_of_not_lt h
        rw [Nat.toDigits_of_base_le (by decide) hle,
          digitsValue_snoc _ (Nat.mod_lt n (by decide)), ih (n / 10) (by omega), Option.map_some,
          Nat.div_add_mod]

/-- Different integers are written differently. -/
theorem int_toString_injective {a b : Int} (h : toString a = toString b) : a = b := by
  have hnat : ∀ {m n : Nat}, m.repr = n.repr → m = n := by
    intro m n hmn
    have hdigits : Nat.toDigits 10 m = Nat.toDigits 10 n := String.ofList_injective hmn
    have hvalue := congrArg digitsValue hdigits
    rw [digitsValue_toDigits, digitsValue_toDigits] at hvalue
    exact Option.some.inj hvalue
  -- a digit is not a minus sign
  have hsign : ∀ {m n : Nat}, m.repr ≠ "-" ++ n.repr := by
    intro m n hmn
    have hmem : '-' ∈ Nat.toDigits 10 m := by
      have hlist : Nat.toDigits 10 m = ("-" ++ n.repr).toList := by
        rw [← hmn]
        exact (String.toList_ofList).symm
      rw [hlist, String.toList_append]
      exact List.mem_append_left _ (by decide)
    exact absurd (Nat.isDigit_of_mem_toDigits (by decide) (by decide) hmem) (by decide)
  rw [Int.toString_eq_repr, Int.toString_eq_repr, Int.repr_eq_if, Int.repr_eq_if] at h
  by_cases ha : 0 ≤ a
  · by_cases hb : 0 ≤ b
    · rw [if_pos ha, if_pos hb] at h
      have := hnat h
      omega
    · rw [if_pos ha, if_neg hb] at h
      exact absurd h hsign
  · by_cases hb : 0 ≤ b
    · rw [if_neg ha, if_pos hb] at h
      exact absurd h.symm hsign
    · rw [if_neg ha, if_neg hb] at h
      have := hnat (String.append_right_inj "-" |>.mp h)
      omega

/-- What has a value is digits throughout. -/
theorem isDigit_of_mem_digits {cs : List Char} {n : Nat} {c : Char} (h : digitsValue cs = some n)
    (hc : c ∈ cs) : c.isDigit = true := by
  unfold digitsValue at h
  generalize 0 = m at h
  induction cs generalizing m with
  | nil => cases hc
  | cons d ds ih =>
      simp only [List.foldlM_cons, Option.bind_eq_bind, Option.bind_eq_some_iff,
        Option.map_eq_some_iff] at h
      obtain ⟨m', ⟨v, hv, -⟩, hds⟩ := h
      rcases List.mem_cons.mp hc with rfl | hc
      · by_contra hnot
        rw [digitValue, if_neg hnot] at hv
        cases hv
      · exact ih hc m' hds

/-- **A number written with `pad` is read back.** -/
@[simp] theorem readNumber_pad {width n : Nat} (h : n < 10 ^ width) (cs : List Char) :
    readNumber width (pad width n ++ cs) = some (n, cs) := by
  have hlen : (pad width n).length = width := length_pad width n
  rw [readNumber, if_pos (by simp), List.take_left' hlen, List.drop_left' hlen,
    digitsValue_pad h, Option.map_some]

end WalStream.Lib
