import LightOss.Decimal
import Mathlib.Data.List.GetD
import Mathlib.Data.List.TakeWhile

/-! # RFC 3339 — an instant as calendar text and back

    An instant is a count of nanoseconds since the epoch, read in UTC.  The proleptic
    Gregorian calendar by cycles of 400, 100, 4 and 1 years; the text with a fraction
    as short as it can be.  The parser is the lenient one of Go's `time` package, which
    reads more than is written: an hour of one digit, a comma before the fraction, an
    offset of up to 24:60.

    Parsing what was formatted gives the instant back (`parse_format`).  The calendar
    half says that the cycles of a day put the day together again
    (`daysBeforeYear_year`, `monthDay_proper`); the text half that each field is read
    where it was written (`fixed_pad`, `parseHour_pad`, `parseFraction_fraction`), and
    `parse_pads` chains them. -/

namespace Rfc3339

open Decimal

/-! ## The calendar -/

/-- The leap years of the Gregorian calendar. -/
def isLeap (year : Int) : Bool := year % 4 = 0 ∧ (year % 100 ≠ 0 ∨ year % 400 = 0)

/-- The day of a year and the year itself, as whole cycles and what is left. -/
structure YearDay where
  n400 : Int
  n100 : Int
  n4 : Int
  n1 : Int
  yday : Int

/-- The cycles of a day counted from 0001-01-01.  The last day of a cycle of 400 or
    of 4 years belongs to its last short cycle, which is one day longer. -/
def yearDay (day : Int) : YearDay :=
  let d100 := day % 146097
  let n100 := d100 / 36524 - d100 / 36524 / 4
  let d4 := d100 - 36524 * n100
  let d1 := d4 % 1461
  let n1 := d1 / 365 - d1 / 365 / 4
  ⟨day / 146097, n100, d4 / 1461, n1, d1 - 365 * n1⟩

/-- The year of a day, from the cycles it is in. -/
def YearDay.year (y : YearDay) : Int := 400 * y.n400 + 100 * y.n100 + 4 * y.n4 + y.n1 + 1

/-- The days before a year, counted from 0001-01-01. -/
def daysBeforeYear (year : Int) : Int :=
  let y := year - 1
  146097 * (y / 400) + 36524 * (y % 400 / 100) + 1461 * (y % 100 / 4) + 365 * (y % 4)

/-- The days of a year before a month. -/
def daysBefore (leap : Bool) (month : Nat) : Nat :=
  [0, 31, 59, 90, 120, 151, 181, 212, 243, 273, 304, 334, 365].getD (month - 1) 365
    + if leap ∧ 2 < month then 1 else 0

/-- The length of a month. -/
def daysIn (leap : Bool) (month : Nat) : Nat := daysBefore leap (month + 1) - daysBefore leap month

/-- The month and the day in it of a day in the year. -/
def monthDay (leap : Bool) (yday : Nat) : Nat × Nat :=
  let month := (List.range 12).countP fun m => daysBefore leap (m + 1) ≤ yday
  (month, yday - daysBefore leap month + 1)

/-- What the cycles of a day say of each other. -/
structure YearDay.Proper (y : YearDay) (day : Int) : Prop where
  n100 : 0 ≤ y.n100 ∧ y.n100 ≤ 3
  n4 : 0 ≤ y.n4 ∧ y.n4 ≤ 24
  n1 : 0 ≤ y.n1 ∧ y.n1 ≤ 3
  yday : 0 ≤ y.yday ∧ y.yday ≤ 365
  last : y.yday = 365 → y.n1 = 3 ∧ (y.n4 ≠ 24 ∨ y.n100 = 3)
  day_eq : day = 146097 * y.n400 + 36524 * y.n100 + 1461 * y.n4 + 365 * y.n1 + y.yday

/-- Every day has its place in the cycles. -/
theorem yearDay_proper (day : Int) : (yearDay day).Proper day := by
  have h400 : 0 ≤ day % 146097 ∧ day % 146097 < 146097 :=
    ⟨Int.emod_nonneg _ (by decide), Int.emod_lt_of_pos _ (by decide)⟩
  have hday : day = 146097 * (day / 146097) + day % 146097 :=
    (Int.mul_ediv_add_emod day 146097).symm
  generalize hn400 : day / 146097 = n400 at hday
  generalize hd100 : day % 146097 = d100 at h400 hday
  generalize hn100 : d100 / 36524 - d100 / 36524 / 4 = n100
  -- the fourth century of a cycle has the one day more
  have h100 : 0 ≤ n100 ∧ n100 ≤ 3 ∧ 0 ≤ d100 - 36524 * n100
      ∧ (d100 - 36524 * n100 ≤ 36524) ∧ (n100 ≠ 3 → d100 - 36524 * n100 < 36524) := by omega
  generalize hd4 : d100 - 36524 * n100 = d4 at h100
  -- the last group of four years is short, except in a fourth century
  have h4 : 0 ≤ d4 / 1461 ∧ d4 / 1461 ≤ 24 ∧ 0 ≤ d4 % 1461 ∧ d4 % 1461 ≤ 1460
      ∧ (d4 / 1461 = 24 → n100 ≠ 3 → d4 % 1461 < 1460) := by omega
  have hd4' : d4 = 1461 * (d4 / 1461) + d4 % 1461 := (Int.mul_ediv_add_emod d4 1461).symm
  generalize hn4 : d4 / 1461 = n4 at h4 hd4'
  generalize hd1 : d4 % 1461 = d1 at h4 hd4'
  -- the cycles as they are computed, with their quotients named
  have hy : yearDay day = ⟨n400, n100, n4, d1 / 365 - d1 / 365 / 4,
      d1 - 365 * (d1 / 365 - d1 / 365 / 4)⟩ := by
    rw [yearDay, hn400, hd100]
    simp only [hn100, hd4, hn4, hd1]
  rw [hy]
  generalize hn1 : d1 / 365 - d1 / 365 / 4 = n1
  -- only the fourth year of a group has a day 365
  have h1 : 0 ≤ n1 ∧ n1 ≤ 3 ∧ 0 ≤ d1 - 365 * n1 ∧ d1 - 365 * n1 ≤ 365
      ∧ (d1 - 365 * n1 = 365 → n1 = 3 ∧ d1 = 1460) := by omega
  refine ⟨⟨h100.1, h100.2.1⟩, ⟨h4.1, h4.2.1⟩, ⟨h1.1, h1.2.1⟩, ⟨h1.2.2.1, h1.2.2.2.1⟩, ?_, ?_⟩
  · intro hlast
    have hend := h1.2.2.2.2 hlast
    refine ⟨hend.1, ?_⟩
    show n4 ≠ 24 ∨ n100 = 3
    have hshort := h4.2.2.2.2
    omega
  · simp only
    omega

/-- The year and the day in it give the day back. -/
theorem daysBeforeYear_year {y : YearDay} {day : Int} (h : y.Proper day) :
    daysBeforeYear y.year + y.yday = day := by
  have h100 := h.n100
  have h4 := h.n4
  have h1 := h.n1
  have hq : (y.year - 1) / 400 = y.n400 ∧ (y.year - 1) % 400 / 100 = y.n100
      ∧ (y.year - 1) % 100 / 4 = y.n4 ∧ (y.year - 1) % 4 = y.n1 := by
    rw [YearDay.year]
    omega
  rw [daysBeforeYear, hq.1, hq.2.1, hq.2.2.1, hq.2.2.2]
  exact h.day_eq.symm

/-- Only a leap year has a day 365. -/
theorem yday_lt {y : YearDay} {day : Int} (h : y.Proper day) :
    y.yday.toNat < 365 + (isLeap y.year).toNat := by
  have hyday := h.yday
  by_cases hlast : y.yday = 365
  · have hleap : isLeap y.year = true := by
      have hend := h.last hlast
      have h100 := h.n100
      have h4 := h.n4
      rw [isLeap, YearDay.year]
      refine decide_eq_true ?_
      omega
    rw [hleap, hlast]
    decide
  · omega

/-- A day of the year is a month and a day of that month, and both give it back. -/
theorem monthDay_proper : ∀ leap : Bool, ∀ yday < 365 + leap.toNat,
    (1 ≤ (monthDay leap yday).1 ∧ (monthDay leap yday).1 ≤ 12)
      ∧ (1 ≤ (monthDay leap yday).2
        ∧ (monthDay leap yday).2 ≤ daysIn leap (monthDay leap yday).1)
      ∧ daysBefore leap (monthDay leap yday).1 + ((monthDay leap yday).2 - 1) = yday := by
  decide +kernel

theorem daysIn_le : ∀ leap : Bool, ∀ month ≤ 12, daysIn leap month ≤ 31 := by decide

/-! ## The text -/

/-- The unit of an instant. -/
def nanosPerSecond : Int := 1000000000

/-- A day without leap seconds. -/
def secondsPerDay : Int := 86400

/-- The days from 0001-01-01 to the epoch. -/
def epochDays : Int := 719162

/-- The day of an instant, counted from 0001-01-01. -/
def dayOf (t : Int) : Int := t / nanosPerSecond / secondsPerDay + epochDays

/-- The year of an instant. -/
def year (t : Int) : Int := (yearDay (dayOf t)).year

/-- The digits of a fraction of a second, without the zeros at the end. -/
def fractionDigits (nanos : Nat) : List Char :=
  ((pad 9 nanos).reverse.dropWhile (· == '0')).reverse

/-- The fraction of a second, left out when there is none. -/
def fraction (nanos : Nat) : List Char := if nanos = 0 then [] else '.' :: fractionDigits nanos

/-- `2006-01-02T15:04:05.999999999Z`, for a year of four digits. -/
def format (t : Int) : List Char :=
  let date := yearDay (dayOf t)
  let leap := isLeap date.year
  let day := monthDay leap date.yday.toNat
  let second := (t / nanosPerSecond % secondsPerDay).toNat
  pad 4 date.year.toNat ++ '-' :: pad 2 day.1 ++ '-' :: pad 2 day.2 ++ 'T' :: pad 2 (second / 3600)
    ++ ':' :: pad 2 (second / 60 % 60) ++ ':' :: pad 2 (second % 60)
    ++ fraction (t % nanosPerSecond).toNat ++ ['Z']

/-- Digits that spell a number within bounds. -/
def field (text : List Char) (low high : Nat) : Option Nat :=
  (parseDigits text).filter fun n => low ≤ n ∧ n ≤ high

/-- A number of `width` digits within bounds, and the text behind it. -/
def fixed (width low high : Nat) (text : List Char) : Option (Nat × List Char) :=
  if width ≤ text.length then
    (field (text.take width) low high).map fun n => (n, text.drop width)
  else none

/-- An hour has two digits, or one that no other digit follows. -/
def parseHour (text : List Char) : Option (Nat × List Char) :=
  if (text.drop 1).head?.any isDigit then fixed 2 0 23 text else fixed 1 0 23 text

/-- The text behind one expected character. -/
def skip (c : Char) : List Char → Option (List Char)
  | a :: rest => if a = c then some rest else none
  | [] => none

/-- A fraction is a dot or a comma and at least one digit; digits after the ninth are cut. -/
def parseFraction : List Char → Nat × List Char
  | mark :: c :: rest =>
      if (mark = '.' ∨ mark = ',') ∧ isDigit c then
        let digits := ((c :: rest).takeWhile isDigit).take 9
        ((parseDigits digits).getD 0 * 10 ^ (9 - digits.length), (c :: rest).dropWhile isDigit)
      else (0, mark :: c :: rest)
  | text => (0, text)

/-- The offset of a zone in seconds; its bounds are 24 hours and 60 minutes, inclusive. -/
def parseZone : List Char → Option Int
  | ['Z'] => some 0
  | [sign, h1, h2, ':', m1, m2] => do
      let hour ← field [h1, h2] 0 24
      let minute ← field [m1, m2] 0 60
      if sign = '+' then some ((hour * 60 + minute) * 60)
      else if sign = '-' then some (-((hour * 60 + minute) * 60))
      else none
  | _ => none

/-- The instant of a date, a time of the day and a fraction. -/
def instant (year : Int) (month day : Nat) (second nanos : Int) : Int :=
  let days := daysBeforeYear year + (daysBefore (isLeap year) month + (day - 1) : Nat) - epochDays
  (days * secondsPerDay + second) * nanosPerSecond + nanos

/-- The fields in the order of the layout; nothing may follow the zone. -/
def parse (text : List Char) : Option Int := do
  let (year, text) ← fixed 4 0 9999 text
  let (month, text) ← fixed 2 1 12 (← skip '-' text)
  let (day, text) ← fixed 2 1 (daysIn (isLeap year) month) (← skip '-' text)
  let (hour, text) ← parseHour (← skip 'T' text)
  let (minute, text) ← fixed 2 0 59 (← skip ':' text)
  let (second, text) ← fixed 2 0 59 (← skip ':' text)
  let offset ← parseZone (parseFraction text).2
  some (instant year month day (hour * 3600 + minute * 60 + second - offset)
    (parseFraction text).1)

/-- A field of fixed width is read back. -/
theorem field_pad {width n low high : Nat} (hwidth : n < 10 ^ width) (hlow : low ≤ n)
    (hhigh : n ≤ high) : field (pad width n) low high = some n := by
  rw [field, parseDigits_pad hwidth, Option.filter_some, if_pos (decide_eq_true ⟨hlow, hhigh⟩)]

/-- A padded number is read up to its end. -/
theorem fixed_pad {width n low high : Nat} (rest : List Char) (hwidth : n < 10 ^ width)
    (hlow : low ≤ n) (hhigh : n ≤ high) :
    fixed width low high (pad width n ++ rest) = some (n, rest) := by
  have hlength := length_pad width n
  have htake : (pad width n ++ rest).take width = pad width n := List.take_left' hlength
  have hdrop : (pad width n ++ rest).drop width = rest := List.drop_left' hlength
  rw [fixed, if_pos (by rw [List.length_append]; omega), htake, hdrop,
    field_pad hwidth hlow hhigh, Option.map_some]

/-- A padded hour has two digits. -/
theorem parseHour_pad {n : Nat} (rest : List Char) (h : n ≤ 23) :
    parseHour (pad 2 n ++ rest) = some (n, rest) := by
  rw [parseHour, if_pos, fixed_pad rest (by omega) (Nat.zero_le n) h]
  exact isDigit_digit n

/-- Skipping the character that stands there. -/
theorem skip_cons (c : Char) (rest : List Char) : skip c (c :: rest) = some rest := if_pos rfl

/-- The digits cut off were zeros. -/
theorem fractionDigits_zeros (nanos : Nat) :
    fractionDigits nanos ++ List.replicate (9 - (fractionDigits nanos).length) '0'
        = pad 9 nanos := by
  have hsplit := List.takeWhile_append_dropWhile (p := (· == '0')) (l := (pad 9 nanos).reverse)
  have hzeros : (pad 9 nanos).reverse.takeWhile (· == '0')
      = List.replicate ((pad 9 nanos).reverse.takeWhile (· == '0')).length '0' :=
    List.eq_replicate_iff.mpr
      ⟨rfl, fun c hc => eq_of_beq (List.mem_takeWhile_imp (p := (· == '0')) hc)⟩
  have hback : pad 9 nanos = fractionDigits nanos
      ++ ((pad 9 nanos).reverse.takeWhile (· == '0')).reverse := by
    rw [fractionDigits, ← List.reverse_append, hsplit, List.reverse_reverse]
  have hlength := congrArg List.length hback
  rw [length_pad, List.length_append, List.length_reverse] at hlength
  rw [hzeros, List.reverse_replicate] at hback
  have hcount : 9 - (fractionDigits nanos).length
      = ((pad 9 nanos).reverse.takeWhile (· == '0')).length := by omega
  rw [hcount]
  exact hback.symm

theorem isDigit_fractionDigits (nanos : Nat) : ∀ c ∈ fractionDigits nanos, isDigit c = true := by
  intro c hc
  have hmem := (List.dropWhile_sublist _).mem (List.mem_reverse.mp hc)
  exact isDigit_pad 9 nanos c (List.mem_reverse.mp hmem)

/-- A fraction is read back, up to the zone behind it. -/
theorem parseFraction_fraction {nanos : Nat} (h : nanos < 10 ^ 9) :
    parseFraction (fraction nanos ++ ['Z']) = (nanos, ['Z']) := by
  rw [fraction]
  split
  · next hzero =>
      rw [hzero]
      rfl
  · next hne =>
      have hdigits := isDigit_fractionDigits nanos
      obtain ⟨v, hv⟩ := exists_parseDigits hdigits
      -- the zeros that were cut off come back as a power of ten
      have hvalue := parseDigits_zeros hv (9 - (fractionDigits nanos).length)
      rw [fractionDigits_zeros, parseDigits_pad h, Option.some_inj] at hvalue
      have hlength : (fractionDigits nanos).length ≤ 9 := by
        have hpad := congrArg List.length (fractionDigits_zeros nanos)
        rw [length_pad, List.length_append] at hpad
        omega
      -- a fraction without digits would be zero
      have hnonempty : fractionDigits nanos ≠ [] := by
        intro hnil
        rw [hnil] at hv
        rw [← Option.some_inj.mp hv, Nat.zero_mul] at hvalue
        exact hne hvalue
      obtain ⟨c, rest, hcons⟩ := List.exists_cons_of_ne_nil hnonempty
      have htake : (c :: (rest ++ ['Z'])).takeWhile isDigit = c :: rest := by
        rw [← List.cons_append, ← hcons, List.takeWhile_append_of_pos hdigits]
        exact List.append_nil _
      have hdrop : (c :: (rest ++ ['Z'])).dropWhile isDigit = ['Z'] := by
        rw [← List.cons_append, ← hcons, List.dropWhile_append_of_pos hdigits]
        rfl
      rw [hcons] at hlength hv hvalue hdigits ⊢
      rw [List.cons_append, List.cons_append, parseFraction,
        if_pos ⟨Or.inl rfl, hdigits c List.mem_cons_self⟩]
      simp only
      rw [htake, hdrop, List.take_of_length_le hlength, hv, Option.getD_some, ← hvalue]

/-- The characters of a formatted instant. -/
def formatChars : List Char := "0123456789-T:.Z".toList

/-- Digits are among the characters of a formatted time. -/
theorem formatChars_of_digit {c : Char} (h : isDigit c = true) : c ∈ formatChars := by
  rw [isDigit, decide_eq_true_iff] at h
  have hall : (List.range 10).all (fun n => formatChars.contains (Char.ofNat (48 + n))) = true := by
    decide
  have hc := List.all_eq_true.mp hall (c.toNat - 48) (List.mem_range.mpr (by omega))
  have hn : 48 + (c.toNat - 48) = c.toNat := by omega
  rw [hn, Char.ofNat_toNat, List.contains_iff_mem] at hc
  exact hc

theorem formatChars_pad (width n : Nat) : ∀ c ∈ pad width n, c ∈ formatChars :=
  fun c hc => formatChars_of_digit (isDigit_pad width n c hc)

theorem formatChars_fraction (nanos : Nat) : ∀ c ∈ fraction nanos, c ∈ formatChars := by
  intro c hc
  rw [fraction] at hc
  split at hc
  · exact absurd hc List.not_mem_nil
  · rcases List.mem_cons.mp hc with rfl | hc
    · decide
    · exact formatChars_of_digit (isDigit_fractionDigits nanos c hc)

/-- **The characters of a formatted time** are digits, `-`, `:`, `.`, `T` and `Z`. -/
theorem formatChars_format (t : Int) : ∀ c ∈ format t, c ∈ formatChars := by
  intro c hc
  rw [format] at hc
  simp only [List.mem_append, List.mem_cons, List.not_mem_nil, or_false, or_assoc] at hc
  rcases hc with hc | rfl | hc | rfl | hc | rfl | hc | rfl | hc | rfl | hc | hc | rfl
  all_goals first | decide | exact formatChars_pad _ _ c hc | exact formatChars_fraction _ c hc

/-- Parsing takes the fields of a text apart where formatting put them together. -/
theorem parse_pads {y m d h i sec nanos : Nat} (hy : y ≤ 9999) (hm : 1 ≤ m ∧ m ≤ 12)
    (hd : 1 ≤ d ∧ d ≤ daysIn (isLeap y) m) (hh : h ≤ 23) (hi : i ≤ 59) (hsec : sec ≤ 59)
    (hnanos : nanos < 10 ^ 9) :
    parse (pad 4 y ++ '-' :: pad 2 m ++ '-' :: pad 2 d ++ 'T' :: pad 2 h ++ ':' :: pad 2 i
        ++ ':' :: pad 2 sec ++ fraction nanos ++ ['Z'])
      = some (instant y m d (h * 3600 + i * 60 + sec) nanos) := by
  have hd31 := daysIn_le (isLeap y) m hm.2
  have hassoc : pad 4 y ++ '-' :: pad 2 m ++ '-' :: pad 2 d ++ 'T' :: pad 2 h ++ ':' :: pad 2 i
        ++ ':' :: pad 2 sec ++ fraction nanos ++ ['Z']
      = pad 4 y ++ ('-' :: (pad 2 m ++ ('-' :: (pad 2 d ++ ('T' :: (pad 2 h ++ (':' :: (pad 2 i
        ++ (':' :: (pad 2 sec ++ (fraction nanos ++ ['Z']))))))))))) := by
    simp only [List.append_assoc, List.cons_append]
  -- year, month, day, hour, minute and second, each up to its separator
  rw [hassoc, parse, fixed_pad _ (by omega) (Nat.zero_le y) hy]
  simp only [Option.bind_eq_bind, Option.bind_some, skip_cons]
  rw [fixed_pad _ (by omega) hm.1 hm.2]
  simp only [Option.bind_some, skip_cons]
  rw [fixed_pad _ (by omega) hd.1 hd.2]
  simp only [Option.bind_some, skip_cons]
  rw [parseHour_pad _ hh]
  simp only [Option.bind_some, skip_cons]
  rw [fixed_pad _ (by omega) (Nat.zero_le i) hi]
  simp only [Option.bind_some, skip_cons]
  rw [fixed_pad _ (by omega) (Nat.zero_le sec) hsec]
  simp only [Option.bind_some, parseFraction_fraction hnanos]
  show some (instant y m d (h * 3600 + i * 60 + sec - 0) nanos) = _
  rw [Int.sub_zero]

/-- **Round trip**: an instant of a year of four digits is what its text spells. -/
theorem parse_format {t : Int} (hyear : 0 ≤ year t ∧ year t ≤ 9999) :
    parse (format t) = some t := by
  have hproper := yearDay_proper (dayOf t)
  have hdays := daysBeforeYear_year hproper
  have hyday := hproper.yday
  obtain ⟨hmonth, hday, hmonthDay⟩ := monthDay_proper _ _ (yday_lt hproper)
  have hsecond : 0 ≤ t / nanosPerSecond % secondsPerDay
      ∧ t / nanosPerSecond % secondsPerDay < 86400 :=
    ⟨Int.emod_nonneg _ (by decide), Int.emod_lt_of_pos _ (by decide)⟩
  have hnanos : 0 ≤ t % nanosPerSecond ∧ t % nanosPerSecond < 1000000000 :=
    ⟨Int.emod_nonneg _ (by decide), Int.emod_lt_of_pos _ (by decide)⟩
  rw [year] at hyear
  rw [format]
  generalize yearDay (dayOf t) = date at *
  -- the year is written without a sign, which loses nothing from zero on
  have hleap : isLeap (date.year.toNat : Int) = isLeap date.year := by
    rw [Int.toNat_of_nonneg hyear.1]
  rw [parse_pads (by omega) hmonth (hleap ▸ hday) (by omega) (by omega) (by omega) (by omega)]
  refine congrArg some ?_
  rw [instant, hleap, hmonthDay, Int.toNat_of_nonneg hyear.1, Int.toNat_of_nonneg hyday.1, hdays,
    dayOf, Int.add_sub_cancel]
  -- whole days, the seconds of the day and the nanoseconds add up to the instant
  have hday := Int.mul_ediv_add_emod (t / nanosPerSecond) secondsPerDay
  have hns := Int.mul_ediv_add_emod t nanosPerSecond
  rw [secondsPerDay, nanosPerSecond] at *
  omega

/-! What is never written and still read. -/

example : parse "2024-05-06T7:08:09Z".toList = parse "2024-05-06T07:08:09Z".toList := by decide

example : parse "2024-05-06T07:08:09,5+24:00".toList = parse "2024-05-05T07:08:09.5Z".toList := by
  decide

end Rfc3339
