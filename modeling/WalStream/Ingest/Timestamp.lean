/-
The commit time of a record, and the instant PostgreSQL meant.

PostgreSQL writes a time of day and the offset from UTC it is given in. The parser cuts the
offset off, and Python takes what is left for a time in the zone of the ingestor's host. The
commit time is therefore the instant exactly when the host happens to keep the offset that
was written; what cannot be read gets the time of the ingestor's clock.

Instants are exact, in microseconds; the milliseconds are cut off towards zero, as `int` does.
-/
import WalStream.Ingest.Parse
import WalStream.Lib.DateTime

set_option autoImplicit false

namespace WalStream.Ingest

open Lib

/-! ## Time stamps as PostgreSQL writes them

The three forms of an offset, the era and the fraction, as `timestamptz` is written. The instant
is what the parts say by the calendar; it is what the commit time should be. -/

/-- The parts of a time stamp. -/
structure StampParts where
  year : Nat
  /-- `BC` follows the offset, and the years count backwards. -/
  bc : Bool
  month : Nat
  day : Nat
  /-- `T` between date and time, or a blank. -/
  t_separator : Bool
  hour : Nat
  minute : Nat
  second : Nat
  /-- How many digits of a second there are, and the number they make. -/
  fraction_digits : Nat
  fraction : Nat
  /-- The offset has a minus sign. -/
  west : Bool
  offset_hours : Nat
  offset_minutes : Option Nat

/-- The date and the time of day, in the calendar that has a year 0. -/
def StampParts.date_time (p : StampParts) : DateTime :=
  { year := if p.bc then 1 - p.year else p.year,
    month := p.month,
    day := p.day,
    hour := p.hour,
    minute := p.minute,
    second := p.second,
    microsecond := p.fraction * 10 ^ (6 - p.fraction_digits) }

/-- A time stamp of PostgreSQL: a date of its range of years, a time of day and an offset. -/
structure Stamp extends StampParts where
  year_pos : 1 ≤ year
  year_le : year ≤ 294276
  date_time_exists : toStampParts.date_time.Exists
  fraction_digits_le : fraction_digits ≤ 6
  fraction_lt : fraction < 10 ^ fraction_digits
  offset_hours_lt : offset_hours < 24
  offset_minutes_lt : ∀ m ∈ offset_minutes, m < 60

namespace Stamp

variable (stamp : Stamp)

/-- The seconds local time is ahead of UTC. -/
def offset : Int :=
  (if stamp.west then -1 else 1) *
    ((stamp.offset_hours * 60 + stamp.offset_minutes.getD 0) * 60 : Nat)

/-- The milliseconds from the epoch to the instant. -/
def epoch_ms : Int := (stamp.date_time.micros - stamp.offset * 1000000).tdiv 1000

/-- A year has four digits at least. -/
def year_text : List Char :=
  pad (if stamp.year < 10000 then 4 else if stamp.year < 100000 then 5 else 6) stamp.year

def fraction_text : List Char :=
  if stamp.fraction_digits = 0 then [] else '.' :: pad stamp.fraction_digits stamp.fraction

def separator : Char := if stamp.t_separator then 'T' else ' '

/-- Date and time with the separator, without the offset. -/
def local_text (separator : Char) : List Char :=
  stamp.year_text ++ '-' :: (pad 2 stamp.month ++ '-' :: (pad 2 stamp.day ++ separator ::
    (pad 2 stamp.hour ++ ':' :: (pad 2 stamp.minute ++ ':' :: (pad 2 stamp.second ++
      stamp.fraction_text)))))

/-- The offset without its sign, and the era. -/
def zone_text : List Char :=
  pad 2 stamp.offset_hours ++
    (stamp.offset_minutes.elim [] fun m => ':' :: pad 2 m) ++
    (if stamp.bc then [' ', 'B', 'C'] else [])

/-- The time stamp as text. -/
def write : String :=
  String.ofList (stamp.local_text stamp.separator ++
    (if stamp.west then '-' else '+') :: stamp.zone_text)

end Stamp

/-! ## What Python makes of a text

`fromisoformat` of a text without an offset is a local time of the host. Which instant that is
depends on the host's zone, which is a parameter. -/

/-- The digits of a second after the point. -/
def read_microsecond : List Char → Option Nat
  | [] => some 0
  | c :: digits =>
      -- what is beyond the sixth digit is dropped
      if (c = '.' ∨ c = ',') ∧ digits ≠ [] ∧ (digits.drop 6).all Char.isDigit then
        (digitsValue (digits.take 6)).map (· * 10 ^ (6 - digits.length))
      else none

/-- `datetime.fromisoformat`, of a date and a time without an offset; `none` for a
`ValueError`. The other forms it takes (a date alone, a week, no separators) are none
PostgreSQL writes. -/
def fromisoformat (text : String) : Option DateTime := do
  let (year, cs) ← readNumber 4 text.toList
  let cs ← skipChar '-' cs
  let (month, cs) ← readNumber 2 cs
  let cs ← skipChar '-' cs
  let (day, cs) ← readNumber 2 cs
  -- any character separates date and time
  let (hour, cs) ← readNumber 2 (cs.drop 1)
  let cs ← skipChar ':' cs
  let (minute, cs) ← readNumber 2 cs
  let cs ← skipChar ':' cs
  let (second, cs) ← readNumber 2 cs
  let microsecond ← read_microsecond cs
  let t : DateTime := ⟨year, month, day, hour, minute, second, microsecond⟩
  if 1 ≤ year ∧ t.Exists then some t else none

/-- The time zone of a host: the offset from UTC, in seconds, it gives a local time. It gives
none if the instant would be in no year Python has, which is a `ValueError`. -/
structure Zone where
  utcoffset : DateTime → Option Int
  within_day : ∀ t o, utcoffset t = some o → -86400 < o ∧ o < 86400

/-- `int(datetime.fromisoformat(ts).timestamp() * 1000)`. -/
def Zone.timestamp_ms (zone : Zone) (ts : String) : Option Int := do
  let dt ← fromisoformat ts
  let offset ← zone.utcoffset dt
  return (dt.micros - offset * 1000000).tdiv 1000

/-- A host in the zone. -/
def Host.inZone (zone : Zone) (container_str : Json → String) : Host :=
  { timestamp_ms := zone.timestamp_ms, container_str := container_str }

example : fromisoformat "2024-01-15T10:30:00.5" = some ⟨2024, 1, 15, 10, 30, 0, 500000⟩ := by
  decide

/-! ## Cutting off the offset

The parser does not read the offset but cuts it off, by a plus sign or by counting hyphens. -/

/-- `replace(" ", "T")`, on a character. -/
def blank_to_T (c : Char) : Char := if c = ' ' then 'T' else c

/-- The replacement makes and unmakes blanks and the letter `T` only, so every other character
can be looked for in the text as it was. -/
theorem blank_to_T_eq_iff {c d : Char} (hd : d ≠ ' ' ∧ d ≠ 'T') : blank_to_T c = d ↔ c = d := by
  unfold blank_to_T
  split
  · next h =>
      subst h
      exact ⟨fun h => absurd h.symm hd.2, fun h => absurd h.symm hd.1⟩
  · rfl

/-- In particular the plus sign and the hyphen, by which the parser goes. -/
theorem mem_map_blank_to_T {cs : List Char} {d : Char} (hd : d ≠ ' ' ∧ d ≠ 'T') :
    d ∈ cs.map blank_to_T ↔ d ∈ cs := by
  simp [blank_to_T_eq_iff hd]

/-- The hyphens are counted to tell the offset's from those of the date, and the replacement
changes none. -/
theorem count_map_blank_to_T (cs : List Char) :
    (cs.map blank_to_T).count '-' = cs.count '-' := by
  simp only [List.count_eq_countP, List.countP_map]
  refine List.countP_congr fun c _ => ?_
  simp [blank_to_T_eq_iff (d := '-') (by decide)]

/-- `naive_timestamp` once the blanks are replaced. -/
def cut_zone (ts : List Char) : String :=
  if '+' ∈ ts then
    String.ofList (ts.takeWhile fun c => c ≠ '+')
  else if ts.count '-' > 2 then
    let zone := ts.reverse.takeWhile fun c => c ≠ '-'
    if zone.length ≤ 5 then String.ofList (ts.take (ts.length - zone.length - 1))
    else String.ofList ts
  else
    String.ofList ts

/-- The cutting, on the characters. What follows is about lists of characters throughout. -/
theorem naive_timestamp_ofList (cs : List Char) :
    naive_timestamp (String.ofList cs) = cut_zone (cs.map blank_to_T) := by
  rw [naive_timestamp, String.toList_ofList]
  rfl

section

variable {front back : List Char}

/-- An offset after a plus sign is cut off. -/
theorem naive_timestamp_plus (h : '+' ∉ front) :
    naive_timestamp (String.ofList (front ++ '+' :: back))
      = String.ofList (front.map blank_to_T) := by
  have hmap : (front ++ '+' :: back).map blank_to_T
      = front.map blank_to_T ++ '+' :: back.map blank_to_T := by
    simp [blank_to_T]
  have hfront : '+' ∉ front.map blank_to_T := by rwa [mem_map_blank_to_T (by decide)]
  have hmem : '+' ∈ front.map blank_to_T ++ '+' :: back.map blank_to_T := by simp
  rw [naive_timestamp_ofList, hmap, cut_zone, if_pos hmem, takeWhile_until _ hfront]

/-- After a third hyphen, five characters are. -/
theorem naive_timestamp_minus (hfront : '+' ∉ front) (hback : '+' ∉ back)
    (htwo : front.count '-' = 2) (hnone : '-' ∉ back) :
    naive_timestamp (String.ofList (front ++ '-' :: back))
      = if back.length ≤ 5 then String.ofList (front.map blank_to_T)
        else String.ofList ((front ++ '-' :: back).map blank_to_T) := by
  have hmap : (front ++ '-' :: back).map blank_to_T
      = front.map blank_to_T ++ '-' :: back.map blank_to_T := by
    simp [blank_to_T]
  -- of the two tests the second applies: there is no plus, and there are three minus signs
  have hplus : ¬ '+' ∈ (front ++ '-' :: back).map blank_to_T := by
    rw [mem_map_blank_to_T (by decide)]
    simp [hfront, hback]
  have hcount : ((front ++ '-' :: back).map blank_to_T).count '-' > 2 := by
    rw [count_map_blank_to_T, List.count_append, List.count_cons_self, htwo]
    omega
  -- behind the last of them comes what is taken for the zone
  have hzone : (((front ++ '-' :: back).map blank_to_T).reverse.takeWhile fun c => c ≠ '-')
      = (back.map blank_to_T).reverse := by
    rw [hmap, List.reverse_append, List.reverse_cons, List.append_assoc, List.singleton_append]
    refine takeWhile_until _ ?_
    rwa [List.mem_reverse, mem_map_blank_to_T (by decide)]
  have htake : ((front ++ '-' :: back).map blank_to_T).take
      (((front ++ '-' :: back).map blank_to_T).length - back.length - 1)
        = front.map blank_to_T := by
    have hlen : ((front ++ '-' :: back).map blank_to_T).length - back.length - 1
        = (front.map blank_to_T).length := by
      simp only [List.length_map, List.length_append, List.length_cons]
      omega
    rw [hlen, hmap, List.take_left]
  have hlen : (back.map blank_to_T).reverse.length = back.length := by simp
  rw [naive_timestamp_ofList, cut_zone, if_neg hplus, if_pos hcount, hzone]
  simp only [hlen, htake]

end

/-! ## Reading what is left

Python reads four digits of a year and six of a second. PostgreSQL may write more of the one and
fewer of the other. -/

namespace Stamp

variable (stamp : Stamp)

/-- Python reads up to six digits of a second and fills them up with zeros; PostgreSQL leaves
trailing zeros out. -/
theorem read_microsecond_fraction :
    read_microsecond stamp.fraction_text
      = some (stamp.fraction * 10 ^ (6 - stamp.fraction_digits)) := by
  unfold fraction_text
  have hle := stamp.fraction_digits_le
  have hlt := stamp.fraction_lt
  split
  · next h =>
      rw [h] at hlt
      obtain h0 : stamp.fraction = 0 := by simpa using hlt
      rw [h0, Nat.zero_mul]
      rfl
  · next h =>
      have hne : pad stamp.fraction_digits stamp.fraction ≠ [] := by
        rw [← List.length_pos_iff_ne_nil, length_pad]
        omega
      have hdrop : (pad stamp.fraction_digits stamp.fraction).drop 6 = [] :=
        List.drop_eq_nil_of_le (by rwa [length_pad])
      have htake : (pad stamp.fraction_digits stamp.fraction).take 6
          = pad stamp.fraction_digits stamp.fraction :=
        List.take_of_length_le (by rwa [length_pad])
      rw [read_microsecond, hdrop, htake, if_pos ⟨Or.inl rfl, hne, rfl⟩, length_pad,
        digitsValue_pad hlt, Option.map_some]

/-- A fraction is not read when something that is no digit follows it. -/
theorem read_microsecond_fraction_append {c : Char} (hc : c.isDigit = false ∧ c ≠ '.' ∧ c ≠ ',')
    (tail : List Char) : read_microsecond (stamp.fraction_text ++ c :: tail) = none := by
  unfold fraction_text
  split
  · rw [List.nil_append, read_microsecond, if_neg]
    rintro ⟨h | h, -⟩
    · exact hc.2.1 h
    · exact hc.2.2 h
  · rw [List.cons_append, read_microsecond]
    split
    · next h =>
        rw [Option.map_eq_none_iff]
        by_contra hsome
        obtain ⟨n, hn⟩ := Option.ne_none_iff_exists'.mp hsome
        -- then all that follows the point would be digits
        have hmem : c ∈ pad stamp.fraction_digits stamp.fraction ++ c :: tail := by simp
        rw [← List.take_append_drop 6 (_ ++ _), List.mem_append] at hmem
        have hdigit : c.isDigit = true := by
          rcases hmem with hmem | hmem
          · exact isDigit_of_mem_digits hn hmem
          · exact List.all_eq_true.mp h.2.2 c hmem
        rw [hc.1] at hdigit
        cases hdigit
    · rfl

/-- What is read of date and time, with something behind it. -/
theorem fromisoformat_local_text (h : stamp.year ≤ 9999) (separator : Char) (tail : List Char) :
    fromisoformat (String.ofList (stamp.local_text separator ++ tail))
      = (read_microsecond (stamp.fraction_text ++ tail)).bind fun microsecond =>
          let t : DateTime := ⟨stamp.year, stamp.month, stamp.day, stamp.hour, stamp.minute,
            stamp.second, microsecond⟩
          if 1 ≤ stamp.year ∧ t.Exists then some t else none := by
  obtain ⟨-, hmonth, -, hday, hhour, hminute, hsecond, -⟩ := stamp.date_time_exists
  have hmonth100 : stamp.month < 10 ^ 2 := Nat.lt_of_le_of_lt hmonth (by decide)
  have hday31 : stamp.day ≤ 31 := Nat.le_trans hday (daysInMonth_le ..)
  have hday100 : stamp.day < 10 ^ 2 := Nat.lt_of_le_of_lt hday31 (by decide)
  have hhour100 : stamp.hour < 10 ^ 2 := Nat.lt_trans hhour (by decide)
  have hminute100 : stamp.minute < 10 ^ 2 := Nat.lt_trans hminute (by decide)
  have hsecond100 : stamp.second < 10 ^ 2 := Nat.lt_trans hsecond (by decide)
  have hyear : stamp.year_text = pad 4 stamp.year := by
    rw [year_text, if_pos (Nat.lt_succ_of_le h)]
  have hyear4 : stamp.year < 10 ^ 4 := Nat.lt_succ_of_le h
  simp only [fromisoformat, local_text, hyear, String.toList_ofList, List.append_assoc,
    List.cons_append, readNumber_pad hyear4, readNumber_pad hmonth100, readNumber_pad hday100,
    readNumber_pad hhour100, readNumber_pad hminute100, readNumber_pad hsecond100, skipChar_cons,
    List.drop_succ_cons, List.drop_zero, Option.bind_eq_bind, Option.bind_some]

/-- A year of more than four digits is not read. -/
theorem fromisoformat_long_year (h : 9999 < stamp.year) (separator : Char) (tail : List Char) :
    fromisoformat (String.ofList (stamp.local_text separator ++ tail)) = none := by
  have hle := stamp.year_le
  -- four digits are read, and the next character should be a hyphen
  obtain ⟨n, d, rest, hn, hyear⟩ : ∃ n d rest, n < 10 ^ 4 ∧
      stamp.year_text = pad 4 n ++ Nat.digitChar (d % 10) :: rest := by
    by_cases h5 : stamp.year < 100000
    · refine ⟨stamp.year / 10, stamp.year, [], by omega, ?_⟩
      rw [year_text, if_neg (by omega), if_pos h5, pad]
    · refine ⟨stamp.year / 10 / 10, stamp.year / 10, [Nat.digitChar (stamp.year % 10)],
        by omega, ?_⟩
      rw [year_text, if_neg (by omega), if_neg h5, pad, pad, List.append_assoc]
      rfl
  have hskip : ∀ cs, skipChar '-' (Nat.digitChar (d % 10) :: cs) = none := by
    intro cs
    refine if_neg fun heq => ?_
    have hdigit := (digitChar_spec _ (Nat.mod_lt d (by decide))).1
    rw [heq] at hdigit
    exact absurd hdigit (by decide)
  simp only [fromisoformat, local_text, hyear, String.toList_ofList, List.append_assoc,
    List.cons_append, readNumber_pad hn, hskip, Option.bind_eq_bind, Option.bind_some,
    Option.bind_none]

/-! ## What is left of a time stamp

The two put together: of a text that PostgreSQL has written, the date and the time of day are
read, and offset and era are lost. -/

/-- No digit is one of the characters the parser looks for. -/
theorem not_mem_pad {c : Char} (hc : c.isDigit = false) (width n : Nat) : c ∉ pad width n := by
  intro h
  rw [isDigit_of_mem_pad h] at hc
  cases hc

/-- Digits are not changed by the replacement, -/
theorem map_pad (width n : Nat) : (pad width n).map blank_to_T = pad width n := by
  have hid : ∀ c ∈ pad width n, blank_to_T c = id c := by
    intro c hc
    refine if_neg ?_
    rintro rfl
    exact not_mem_pad (by decide) width n hc
  rw [List.map_congr_left hid, List.map_id]

/-- and a fraction has nothing but digits and its point. -/
theorem not_mem_fraction_text {c : Char} (hc : c.isDigit = false ∧ c ≠ '.') :
    c ∉ stamp.fraction_text := by
  unfold fraction_text
  split
  · exact List.not_mem_nil
  · rw [List.mem_cons, not_or]
    exact ⟨hc.2, not_mem_pad hc.1 _ _⟩

/-- So the replacement leaves the fraction, -/
theorem map_fraction_text : stamp.fraction_text.map blank_to_T = stamp.fraction_text := by
  unfold fraction_text
  split
  · rfl
  · rw [List.map_cons, map_pad]
    rfl

/-- and of date and time it changes the one separator. -/
theorem map_local_text :
    (stamp.local_text stamp.separator).map blank_to_T = stamp.local_text 'T' := by
  have hsep : blank_to_T stamp.separator = 'T' := by
    unfold separator
    cases stamp.t_separator
    · rfl
    · rfl
  have hhyphen : blank_to_T '-' = '-' := rfl
  have hcolon : blank_to_T ':' = ':' := rfl
  simp only [local_text, year_text, List.map_append, List.map_cons, map_pad, map_fraction_text,
    hsep, hhyphen, hcolon]

/-- There is no plus sign in date and time: the first one in the text is that of the offset. -/
theorem plus_not_mem_local_text : '+' ∉ stamp.local_text stamp.separator := by
  have hpad : ∀ width n, '+' ∉ pad width n := not_mem_pad (by decide)
  have hsep : '+' ≠ stamp.separator := by
    unfold separator
    cases stamp.t_separator
    · decide
    · decide
  simp [local_text, year_text, hpad, hsep, stamp.not_mem_fraction_text (c := '+') (by decide)]

/-- There are two hyphens in date and time, so a third one is that of the offset. This is the
test the parser makes. -/
theorem count_local_text : (stamp.local_text stamp.separator).count '-' = 2 := by
  have hpad : ∀ width n, (pad width n).count '-' = 0 := fun width n =>
    List.count_eq_zero_of_not_mem (not_mem_pad (by decide) width n)
  have hfraction : stamp.fraction_text.count '-' = 0 :=
    List.count_eq_zero_of_not_mem (stamp.not_mem_fraction_text (by decide))
  have hsep : (stamp.separator == '-') = false := by
    unfold separator
    cases stamp.t_separator
    · decide
    · decide
  simp [local_text, year_text, List.count_append, List.count_cons, hpad, hfraction, hsep]

/-- The offset has no second sign in it, whether or not it gives minutes and an era. -/
theorem not_mem_zone_text {c : Char} (hc : c = '+' ∨ c = '-') : c ∉ stamp.zone_text := by
  have hpad : ∀ width n, c ∉ pad width n := by
    refine not_mem_pad ?_
    rcases hc with rfl | rfl
    · decide
    · decide
  have hcolon : c ≠ ':' := by
    rcases hc with rfl | rfl
    · decide
    · decide
  have hera : c ∉ [' ', 'B', 'C'] := by
    rcases hc with rfl | rfl
    · decide
    · decide
  unfold zone_text
  cases stamp.offset_minutes with
  | none =>
      split
      · simp only [Option.elim_none, List.mem_append, List.not_mem_nil, hpad, hera, or_self,
          not_false_eq_true]
      · simp [hpad]
  | some m =>
      split
      · simp only [Option.elim_some, List.mem_append, List.mem_cons (b := ':'), hpad, hera,
          hcolon, or_self, not_false_eq_true]
      · simp [hpad, hcolon]

/-- How long the offset is. After a hyphen the parser asks for at most five characters, which an
offset with minutes and an era exceeds. -/
theorem length_zone_text :
    stamp.zone_text.length = 2 + (if stamp.offset_minutes.isSome then 3 else 0) +
      (if stamp.bc then 3 else 0) := by
  unfold zone_text
  cases stamp.offset_minutes with
  | none =>
      split
      · simp
      · simp
  | some m =>
      split
      · simp
      · simp

/-- The offset stays on: it follows a hyphen and is too long with the era. -/
def KeepsOffset : Prop :=
  stamp.bc = true ∧ stamp.west = true ∧ stamp.offset_minutes.isSome = true

instance : Decidable stamp.KeepsOffset := inferInstanceAs (Decidable (_ ∧ _))

/-- **What is left**: date and time, but for the rare offset that stays on. -/
theorem naive_timestamp_write :
    naive_timestamp stamp.write
      = String.ofList (stamp.local_text 'T' ++
          if stamp.KeepsOffset then '-' :: stamp.zone_text.map blank_to_T else []) := by
  rw [write]
  cases hwest : stamp.west with
  | false =>
      have hcut : ¬ stamp.KeepsOffset := fun h =>
        Bool.false_ne_true (hwest.symm.trans h.2.1)
      rw [if_neg Bool.false_ne_true, naive_timestamp_plus stamp.plus_not_mem_local_text,
        map_local_text, if_neg hcut, List.append_nil]
  | true =>
      rw [if_pos rfl, naive_timestamp_minus stamp.plus_not_mem_local_text
        (stamp.not_mem_zone_text (Or.inl rfl)) stamp.count_local_text
        (stamp.not_mem_zone_text (Or.inr rfl)), List.map_append, List.map_cons, map_local_text]
      have hlength : stamp.zone_text.length ≤ 5 ↔ ¬ stamp.KeepsOffset := by
        rw [length_zone_text, KeepsOffset, hwest]
        cases stamp.bc
        · cases stamp.offset_minutes.isSome
          · decide
          · decide
        · cases stamp.offset_minutes.isSome
          · decide
          · decide
      by_cases hkeeps : stamp.KeepsOffset
      · rw [if_neg fun h => hlength.mp h hkeeps, if_pos hkeeps]
        rfl
      · rw [if_pos (hlength.mpr hkeeps), if_neg hkeeps, List.append_nil]

/-- The local time the host takes the time stamp for: the date and time that are written, in
the year after Christ. It takes it for none if the year has more than four digits, if the
offset stays on, or if there is no such day. -/
def read_as : Option DateTime :=
  let t : DateTime := { stamp.date_time with year := stamp.year }
  if stamp.year ≤ 9999 ∧ ¬ stamp.KeepsOffset ∧ t.Exists then some t else none

/-- **What the host reads.** -/
theorem fromisoformat_write : fromisoformat (naive_timestamp stamp.write) = stamp.read_as := by
  rw [naive_timestamp_write, read_as]
  by_cases hyear : stamp.year ≤ 9999
  · rw [fromisoformat_local_text _ hyear]
    by_cases hkeeps : stamp.KeepsOffset
    · -- nothing may follow the fraction
      rw [if_pos hkeeps, read_microsecond_fraction_append _ (by decide), Option.bind_none,
        if_neg fun h => h.2.1 hkeeps]
    · rw [if_neg hkeeps, List.append_nil, read_microsecond_fraction, Option.bind_some]
      have hpos := stamp.year_pos
      simp [hyear, hkeeps, hpos, StampParts.date_time]
  · rw [fromisoformat_long_year _ (Nat.lt_of_not_le hyear), if_neg fun h => hyear h.1]

/-! ## The commit time

So the commit time is right when the host happens to be at the offset that was written, and in
the years after Christ. That this is also necessary is a matter of sizes: no offset makes up for
a lost era. -/

/-- **The host keeps the written offset** at the written date and time, in the years after
Christ. What cannot be read is taken for the time `now_ms` of the ingestor's clock, so that
has to be the instant then. -/
def OffsetKept (zone : Zone) (now_ms : Int) : Prop :=
  match stamp.read_as.bind zone.utcoffset with
  | some offset => stamp.bc = false ∧ offset = stamp.offset
  | none => now_ms = stamp.epoch_ms

instance (zone : Zone) (now_ms : Int) : Decidable (stamp.OffsetKept zone now_ms) :=
  match h : stamp.read_as.bind zone.utcoffset with
  | some offset =>
      decidable_of_iff (stamp.bc = false ∧ offset = stamp.offset) (by rw [OffsetKept, h])
  | none => decidable_of_iff (now_ms = stamp.epoch_ms) (by rw [OffsetKept, h])

/-- The local time that is read has the digits of the year that is written, with the era lost. -/
theorem read_as_eq_some {t : DateTime} (h : stamp.read_as = some t) :
    t = { stamp.date_time with year := stamp.year } := by
  simp only [read_as, Option.ite_none_right_eq_some, Option.some.injEq] at h
  exact h.2.symm

/-- In the years after Christ that is the time that was meant, -/
theorem micros_read_as {t : DateTime} (h : stamp.read_as = some t) (hbc : stamp.bc = false) :
    t = stamp.date_time := by
  rw [stamp.read_as_eq_some h]
  simp [StampParts.date_time, hbc]

/-- and in those before it the time is off by most of a year at least, whatever the offset: the
year is read as the one after Christ with its number. No zone makes up for that. -/
theorem micros_before_christ {t : DateTime} (h : stamp.read_as = some t) (hbc : stamp.bc = true) :
    stamp.date_time.micros + 364 * 86400000000 ≤ t.micros := by
  obtain rfl := stamp.read_as_eq_some h
  have hyear : (1 : Int) ≤ stamp.year := Int.ofNat_le.mpr stamp.year_pos
  have hmirror := DateTime.micros_mirror (t := { stamp.date_time with year := stamp.year }) hyear
  simpa [StampParts.date_time, hbc] using hmirror

/-- PostgreSQL's offsets stay below a day, and so do Python's; the two facts together bound what
an offset can hide. -/
theorem offset_bound : -86400 < stamp.offset ∧ stamp.offset < 86400 := by
  have hhours := stamp.offset_hours_lt
  have hminutes : stamp.offset_minutes.getD 0 < 60 := by
    cases h : stamp.offset_minutes with
    | none => decide
    | some m => exact stamp.offset_minutes_lt m h
  unfold offset
  split
  · omega
  · omega

/-- Instants of one millisecond are less than two apart. -/
theorem sub_lt_of_tdiv_eq {a b : Int} (h : a.tdiv 1000 = b.tdiv 1000) :
    a - b < 2000 ∧ b - a < 2000 := by
  have ha := Int.mul_tdiv_add_tmod a 1000
  have hb := Int.mul_tdiv_add_tmod b 1000
  have hahigh := Int.tmod_lt_of_pos a (by decide : (0 : Int) < 1000)
  have hbhigh := Int.tmod_lt_of_pos b (by decide : (0 : Int) < 1000)
  have halow := Int.lt_tmod_of_pos a (by decide : (0 : Int) < 1000)
  have hblow := Int.lt_tmod_of_pos b (by decide : (0 : Int) < 1000)
  rw [h] at ha
  omega

/-- The time the parser gives a time stamp. -/
theorem timestamp_ms_eq_iff (zone : Zone) (now_ms : Int) :
    (zone.timestamp_ms (naive_timestamp stamp.write)).getD now_ms = stamp.epoch_ms ↔
      stamp.OffsetKept zone now_ms := by
  rw [Zone.timestamp_ms, fromisoformat_write, OffsetKept]
  cases hread : stamp.read_as with
  | none => simp
  | some t =>
      cases hoffset : zone.utcoffset t with
      | none => simp [hoffset]
      | some offset =>
          obtain ⟨hlow, hhigh⟩ := zone.within_day t offset hoffset
          obtain ⟨hlow', hhigh'⟩ := stamp.offset_bound
          simp only [Option.bind_eq_bind, Option.bind_some, hoffset, Option.pure_def,
            Option.getD_some, epoch_ms]
          cases hbc : stamp.bc with
          | false =>
              -- a second more or less is a thousand milliseconds
              rw [stamp.micros_read_as hread hbc]
              constructor
              · intro h
                have := sub_lt_of_tdiv_eq h
                exact ⟨rfl, by omega⟩
              · rintro ⟨-, rfl⟩
                rfl
          | true =>
              have := stamp.micros_before_christ hread hbc
              constructor
              · intro h
                have := sub_lt_of_tdiv_eq h
                omega
              · rintro ⟨h, -⟩
                cases h

end Stamp

section

variable {host : Host} {now_ms : Int} {payload : Json} {lsn : Nat} {records : List ChangeRecord}

/-- A change takes the commit time it is given. -/
theorem parse_change_commit_time {commit_time : Int} {change : Json} {r : ChangeRecord}
    (h : parse_change host lsn commit_time change = some r) : r.commit_time = commit_time := by
  simp only [parse_change, Option.bind_eq_bind, Option.bind_eq_some_iff, Option.pure_def,
    Option.some.injEq] at h
  obtain ⟨_, _, _, _, _, _, _, _, _, _, _, _, _, _, rfl⟩ := h
  rfl

/-- Every record of a payload gets the payload's commit time. -/
theorem parse_commit_time (h : parse_wal2json_v2 host now_ms payload lsn = some records) :
    ∀ r ∈ records, commit_time_ms host now_ms payload = some r.commit_time := by
  simp only [parse_wal2json_v2, Option.bind_eq_bind, Option.bind_eq_some_iff] at h
  obtain ⟨commit_time, hcommit, changes, _, items, _, hmap⟩ := h
  intro r hr
  obtain ⟨change, _, hchange⟩ := mem_of_mapM_some hmap hr
  rw [hcommit, parse_change_commit_time hchange]

/-- A time stamp is no empty text. An empty one would be taken for a missing one, and the clock
used in its place. -/
theorem Stamp.write_ne_empty (stamp : Stamp) : stamp.write ≠ "" := by
  intro h
  have hlist := congrArg String.toList h
  rw [Stamp.write, String.toList_ofList] at hlist
  simp at hlist

/-- **The commit times are the instant of the time stamp exactly if the host keeps the offset
that is written.** -/
theorem commit_time_iff (stamp : Stamp) (zone : Zone) (container_str : Json → String)
    (hts : payload.getD "timestamp" (.str "") = some (.str stamp.write))
    (h : parse_wal2json_v2 (.inZone zone container_str) now_ms payload lsn = some records)
    (hne : records ≠ []) :
    (∀ r ∈ records, r.commit_time = stamp.epoch_ms) ↔ stamp.OffsetKept zone now_ms := by
  have htime : ∀ r ∈ records,
      r.commit_time = (zone.timestamp_ms (naive_timestamp stamp.write)).getD now_ms := by
    intro r hr
    have hcommit := parse_commit_time h r hr
    simp only [commit_time_ms, hts, Option.bind_eq_bind, Option.bind_some,
      if_neg stamp.write_ne_empty, Option.some.injEq] at hcommit
    exact hcommit.symm
  rw [← stamp.timestamp_ms_eq_iff zone now_ms]
  constructor
  · intro hall
    obtain ⟨r, hr⟩ := List.exists_mem_of_ne_nil records hne
    rw [← htime r hr, hall r hr]
  · intro heq r hr
    rw [htime r hr, heq]

end

/-! ## A host in UTC -/

def utc : Zone := ⟨fun _ => some 0, fun _ _ h => by cases h; decide⟩

/-- `2024-01-15 10:30:00.123456`, as many hours ahead of UTC. -/
def sampleStamp (offset_hours : Nat) (h : offset_hours < 24) : Stamp :=
  { year := 2024, bc := false, month := 1, day := 15, t_separator := false,
    hour := 10, minute := 30, second := 0, fraction_digits := 6, fraction := 123456,
    west := false, offset_hours := offset_hours, offset_minutes := none,
    year_pos := by decide, year_le := by decide,
    date_time_exists := by simp [StampParts.date_time, DateTime.Exists, daysInMonth],
    fraction_digits_le := by decide, fraction_lt := by decide, offset_hours_lt := h,
    offset_minutes_lt := by decide }

example : (sampleStamp 0 (by decide)).write = "2024-01-15 10:30:00.123456+00" := by decide

/-- The message of one insertion at the time. -/
def insertedAt (stamp : Stamp) : Json :=
  .obj [("timestamp", .str stamp.write),
    ("change", .arr [.obj [("kind", .str "insert"), ("table", .str "t")]])]

/-- The insertion two hours ahead of UTC is taken for one two hours later than it was. -/
theorem offset_ignored :
    (parse_wal2json_v2 (.inZone utc bareHost.container_str) 0
      (insertedAt (sampleStamp 2 (by decide))) 1).map (List.map ChangeRecord.commit_time)
        = some [1705314600123] ∧
      (sampleStamp 2 (by decide)).epoch_ms = 1705307400123 := by
  constructor
  · decide +kernel
  · decide +kernel

/-- A host in UTC keeps the offset of a time stamp in UTC, so its records carry the instant. -/
theorem commit_time_iff_utc :
    ∃ records, parse_wal2json_v2 (.inZone utc bareHost.container_str) 0
        (insertedAt (sampleStamp 0 (by decide))) 1 = some records ∧
      ∀ r ∈ records, r.commit_time = (sampleStamp 0 (by decide)).epoch_ms := by
  have hparse : (parse_wal2json_v2 (.inZone utc bareHost.container_str) 0
      (insertedAt (sampleStamp 0 (by decide))) 1).isSome = true := by decide +kernel
  obtain ⟨records, hrecords⟩ := Option.isSome_iff_exists.mp hparse
  have hne : records ≠ [] := by
    rintro rfl
    exact absurd hrecords (by decide +kernel)
  exact ⟨records, hrecords, (commit_time_iff _ utc _ rfl hrecords hne).mpr (by decide +kernel)⟩

end WalStream.Ingest
