import Mathlib.Data.List.Induction
import Mathlib.Data.Nat.Digits.Lemmas
import Mathlib.Tactic.IntervalCases

/-! # Decimal — numbers as digits

    Digits of a fixed width, and the shortest ones.  Parsing what was printed gives
    the number back: from the right, digit by digit (`parseDigits_concat`), for a padded
    number (`parseDigits_pad`) and for the shortest digits, whose meaning is that of
    `Nat.digits` (`parseDigits_map`).  The sign comes last (`parseInt_printInt`). -/

namespace Decimal

/-- The last digit of a number, as a character. -/
def digit (n : Nat) : Char := Char.ofNat (48 + n % 10)

/-- The last `width` decimal digits of a number. -/
def pad : Nat → Nat → List Char
  | 0, _ => []
  | width + 1, n => pad width (n / 10) ++ [digit n]

/-- The characters from `0` to `9`. -/
def isDigit (c : Char) : Bool := 48 ≤ c.toNat ∧ c.toNat ≤ 57

/-- The number some digits spell, nothing when one of them is no digit. -/
def parseDigits (text : List Char) : Option Nat :=
  text.foldlM (fun n c => if isDigit c then some (n * 10 + (c.toNat - 48)) else none) 0

/-- Where the digits stand among the characters. -/
theorem toNat_digit (n : Nat) : (digit n).toNat = 48 + n % 10 := by
  have h : n % 10 < 10 := Nat.mod_lt _ (by decide)
  rw [digit]
  generalize n % 10 = r at *
  interval_cases r <;> rfl

theorem isDigit_digit (n : Nat) : isDigit (digit n) = true := by
  rw [isDigit, toNat_digit]
  refine decide_eq_true ?_
  omega

theorem isDigit_pad (width n : Nat) : ∀ c ∈ pad width n, isDigit c = true := by
  induction width generalizing n with
  | zero => nofun
  | succ width ih =>
      intro c hc
      rcases List.mem_append.mp hc with hc | hc
      · exact ih _ c hc
      · rw [List.mem_singleton.mp hc]
        exact isDigit_digit n

theorem length_pad (width n : Nat) : (pad width n).length = width := by
  induction width generalizing n with
  | zero => rfl
  | succ width ih => rw [pad, List.length_append, ih, List.length_singleton]

/-- Parsing from the right: the last digit counts once, what is before it ten times. -/
theorem parseDigits_concat (text : List Char) (c : Char) :
    parseDigits (text ++ [c]) =
      (parseDigits text).bind fun n => if isDigit c then some (n * 10 + (c.toNat - 48))
          else none := by
  rw [parseDigits, List.foldlM_append]
  exact bind_congr fun n => by
    split <;> rename_i h <;> simp [h]

/-- Printed at a width that fits, a number is read back. -/
theorem parseDigits_pad {width n : Nat} (h : n < 10 ^ width) :
    parseDigits (pad width n) = some n := by
  induction width generalizing n with
  | zero =>
      rw [Nat.pow_zero, Nat.lt_one_iff] at h
      rw [h]
      rfl
  | succ width ih =>
      rw [pad, parseDigits_concat, ih (by rw [Nat.pow_succ] at h; omega), Option.bind_some,
        if_pos (isDigit_digit n), toNat_digit]
      refine congrArg some ?_
      omega

/-- Every zero at the end is a factor of ten. -/
theorem parseDigits_zeros {text : List Char} {n : Nat} (h : parseDigits text = some n) (k : Nat) :
    parseDigits (text ++ List.replicate k '0') = some (n * 10 ^ k) := by
  induction k with
  | zero => rw [List.replicate_zero, List.append_nil, h, Nat.pow_zero, Nat.mul_one]
  | succ k ih =>
      rw [List.replicate_succ', ← List.append_assoc, parseDigits_concat, ih, Option.bind_some,
        if_pos (by decide)]
      refine congrArg some ?_
      have hzero : '0'.toNat - 48 = 0 := rfl
      rw [hzero, Nat.add_zero, Nat.pow_succ, Nat.mul_assoc]

theorem exists_parseDigits {text : List Char} (h : ∀ c ∈ text, isDigit c = true) :
    ∃ n, parseDigits text = some n := by
  induction text using List.reverseRecOn with
  | nil => exact ⟨0, rfl⟩
  | append_singleton text c ih =>
      obtain ⟨n, hn⟩ := ih fun d hd => h d (List.mem_append_left _ hd)
      refine ⟨n * 10 + (c.toNat - 48), ?_⟩
      rw [parseDigits_concat, hn, Option.bind_some, if_pos (h c List.mem_concat_self)]

/-! ## Integers -/

/-- The shortest digits of a number. -/
def printNat (n : Nat) : List Char :=
  if n = 0 then ['0'] else (Nat.digits 10 n).reverse.map digit

/-- The shortest digits, behind a minus sign for a negative number. -/
def printInt (n : Int) : List Char :=
  if n < 0 then '-' :: printNat n.natAbs else printNat n.natAbs

/-- An integer with an optional minus sign and at least one digit. -/
def parseInt : List Char → Option Int
  | [] => none
  | c :: rest =>
      if c = '-' then if rest = [] then none else (parseDigits rest).map fun n => -(n : Int)
      else (parseDigits (c :: rest)).map fun n => (n : Int)

/-- Digits printed from the lowest up mean their number in base ten. -/
theorem parseDigits_map (ds : List Nat) (h : ∀ d ∈ ds, d < 10) :
    parseDigits (ds.reverse.map digit) = some (Nat.ofDigits 10 ds) := by
  induction ds with
  | nil => rfl
  | cons d rest ih =>
      obtain ⟨hd, hrest⟩ := List.forall_mem_cons.mp h
      rw [List.reverse_cons, List.map_append, List.map_singleton, parseDigits_concat, ih hrest,
        Option.bind_some, if_pos (isDigit_digit d), toNat_digit, Nat.ofDigits_cons]
      refine congrArg some ?_
      omega

theorem parseDigits_printNat (n : Nat) : parseDigits (printNat n) = some n := by
  rw [printNat]
  split
  · next h =>
      rw [h]
      rfl
  · rw [parseDigits_map _ fun d hd => Nat.digits_lt_base (by decide) hd, Nat.ofDigits_digits]

theorem isDigit_printNat (n : Nat) : ∀ c ∈ printNat n, isDigit c = true := by
  intro c hc
  rw [printNat] at hc
  split at hc
  · rw [List.mem_singleton.mp hc]
    rfl
  · obtain ⟨d, -, rfl⟩ := List.mem_map.mp hc
    exact isDigit_digit d

/-- Only zero starts with a zero. -/
theorem printNat_head {n : Nat} (h : n ≠ 0) :
    ∃ c rest, printNat n = c :: rest ∧ isDigit c = true ∧ c ≠ '0' := by
  have hdigits : Nat.digits 10 n ≠ [] := Nat.digits_ne_nil_iff_ne_zero.mpr h
  have hlast := Nat.getLast_digit_ne_zero 10 h
  have hlt := Nat.digits_lt_base (by decide : 1 < 10) (List.getLast_mem hdigits)
  refine ⟨digit ((Nat.digits 10 n).getLast hdigits),
    ((Nat.digits 10 n).dropLast.reverse).map digit, ?_, isDigit_digit _, ?_⟩
  · rw [printNat, if_neg h, ← List.map_cons, ← List.reverse_concat,
      List.dropLast_concat_getLast]
  · intro hzero
    have hcode := congrArg Char.toNat hzero
    rw [toNat_digit, Nat.mod_eq_of_lt hlt] at hcode
    exact hlast (Nat.add_left_cancel hcode)

theorem printNat_cons (n : Nat) : ∃ c rest, printNat n = c :: rest ∧ isDigit c = true := by
  by_cases h : n = 0
  · exact ⟨'0', [], if_pos h, rfl⟩
  · obtain ⟨c, rest, hcons, hdigit, -⟩ := printNat_head h
    exact ⟨c, rest, hcons, hdigit⟩

/-- A digit is no minus sign, so a printed number without a sign is read without one. -/
theorem not_minus {c : Char} (h : isDigit c = true) : c ≠ '-' := by
  rintro rfl
  exact absurd h (by decide)

/-- **Round trip** of the integers. -/
theorem parseInt_printInt (n : Int) : parseInt (printInt n) = some n := by
  obtain ⟨c, rest, hcons, hdigit⟩ := printNat_cons n.natAbs
  have hvalue := parseDigits_printNat n.natAbs
  rw [hcons] at hvalue
  rw [printInt, hcons]
  split
  · next h =>
      rw [parseInt, if_pos rfl, if_neg (List.cons_ne_nil c rest), hvalue]
      refine congrArg some ?_
      show -(n.natAbs : Int) = n
      omega
  · next h =>
      rw [parseInt, if_neg (not_minus hdigit), hvalue]
      refine congrArg some ?_
      show (n.natAbs : Int) = n
      omega

/-- An integer whose sign may be a plus. -/
def parseSigned (text : List Char) : Option Int :=
  match text with
  | '+' :: rest => if rest = [] then none else (parseDigits rest).map fun n => (n : Int)
  | text => parseInt text

/-- A printed number starts with no plus. -/
theorem printInt_head (n : Int) : ∃ c rest, printInt n = c :: rest ∧ c ≠ '+' := by
  obtain ⟨c, rest, hcons, hdigit⟩ := printNat_cons n.natAbs
  rw [printInt]
  split
  · exact ⟨'-', printNat n.natAbs, rfl, by decide⟩
  · refine ⟨c, rest, hcons, ?_⟩
    rintro rfl
    exact absurd hdigit (by decide)

/-- The reader that also takes a plus sign reads the number back. -/
theorem parseSigned_printInt (n : Int) : parseSigned (printInt n) = some n := by
  obtain ⟨c, rest, hcons, hplus⟩ := printInt_head n
  have hvalue := parseInt_printInt n
  rw [hcons] at hvalue ⊢
  rw [parseSigned, hvalue]
  exact fun _ heq => hplus (List.cons.inj heq).1

/-- Different numbers are printed differently. -/
theorem printInt_injective {m n : Int} (h : printInt m = printInt n) : m = n := by
  have hvalue := parseInt_printInt m
  rw [h, parseInt_printInt] at hvalue
  exact (Option.some.inj hvalue).symm

/-- Only digits and the minus sign are printed. -/
theorem mem_printInt {n : Int} {c : Char} (h : c ∈ printInt n) : c = '-' ∨ isDigit c = true := by
  rw [printInt] at h
  split at h
  · rcases List.mem_cons.mp h with h | h
    · exact Or.inl h
    · exact Or.inr (isDigit_printNat _ c h)
  · exact Or.inr (isDigit_printNat _ c h)

end Decimal
