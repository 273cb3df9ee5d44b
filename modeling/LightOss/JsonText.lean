import LightOss.Decimal
import Mathlib.Data.List.TakeWhile
import Mathlib.Tactic.FinCases

/-! # JSON text — tokens as they stand in the text

    A parser of any JSON text and a printer of flat objects.  Names, strings and
    numbers stay raw; what a raw string says is the business of `unquote`.

    Parsing the printed object gives its members back.  A printed character has one of
    three shapes (`quoteChar_cases`), each of which the scanner passes over and
    `unquote` reads back; a number ends where the text goes on with what may follow it
    (`Follows`).  With that the members are parsed one after the other, by induction on
    the list (`members_print`), and the text is long enough for its fuel. -/

namespace JsonText

open Decimal

/-! ## Strings -/

/-- A lower-case hexadecimal digit. -/
def hexDigit (n : Nat) : Char := "0123456789abcdef".toList.getD n '0'

/-- What a digit stands for; 16 for any other character. -/
def hexValue (c : Char) : Nat :=
  if isDigit c then c.toNat - 48
  else if 'a' ≤ c ∧ c ≤ 'f' then c.toNat - 87
  else if 'A' ≤ c ∧ c ≤ 'F' then c.toNat - 55
  else 16

/-- Digits of either case. -/
def isHex (c : Char) : Bool := hexValue c < 16

/-- The characters a short escape stands for, and its letter. -/
def shortEscapes : List (Char × Char) :=
  [('"', '"'), ('\\', '\\'), ('/', '/'), (Char.ofNat 8, 'b'), (Char.ofNat 12, 'f'), ('\n', 'n'),
    ('\r', 'r'), ('\t', 't')]

/-- The characters a printer never writes as they are: those of markup, and two line
    separators. -/
def guardedChars : List Char := ['<', '>', '&', Char.ofNat 0x2028, Char.ofNat 0x2029]

/-- `\u` and four digits. -/
def unicodeEscape (n : Nat) : List Char :=
  ['\\', 'u', hexDigit (n / 4096 % 16), hexDigit (n / 256 % 16), hexDigit (n / 16 % 16),
    hexDigit (n % 16)]

/-- A character as `encoding/json` writes it inside a string. -/
def quoteChar (c : Char) : List Char :=
  match shortEscapes.find? fun e => e.1 == c && c != '/' with
  | some (_, letter) => ['\\', letter]
  | none => if c.toNat < 0x20 ∨ c ∈ guardedChars then unicodeEscape c.toNat else [c]

/-- The raw form of a string, without its quotation marks. -/
def quote (text : List Char) : List Char := text.flatMap quoteChar

/-- The code unit four hexadecimal digits spell. -/
def codeUnit : List Char → Nat
  | a :: b :: c :: d :: _ =>
      hexValue a * 4096 + hexValue b * 256 + hexValue c * 16 + hexValue d
  | _ => 0

/-- A half of a pair of code units. -/
def isSurrogate (unit : Nat) : Bool := 0xD800 ≤ unit ∧ unit < 0xE000

/-- The character an escape stands for and the length of the escape, both after the
    backslash.  A surrogate without its other half reads as U+FFFD. -/
def escape : List Char → Char × Nat
  | 'u' :: digits =>
      let unit := codeUnit digits
      if isSurrogate unit then
        match digits.drop 4 with
        | '\\' :: 'u' :: more =>
            let low := codeUnit more
            if unit < 0xDC00 ∧ 0xDC00 ≤ low ∧ low < 0xE000 then
              (Char.ofNat ((unit - 0xD800) * 1024 + (low - 0xDC00) + 0x10000), 11)
            else (Char.ofNat 0xFFFD, 5)
        | _ => (Char.ofNat 0xFFFD, 5)
      else (Char.ofNat unit, 5)
  | letter :: _ => (((shortEscapes.find? fun e => e.2 == letter).map Prod.fst).getD letter, 1)
  | [] => (Char.ofNat 0xFFFD, 0)

/-- What a raw string says, after skipping the rest of an escape. -/
def unquoteFrom : Nat → List Char → List Char
  | _, [] => []
  | skip + 1, _ :: rest => unquoteFrom skip rest
  | 0, c :: rest =>
      if c = '\\' then (escape rest).1 :: unquoteFrom (escape rest).2 rest
      else c :: unquoteFrom 0 rest

/-- What a raw string says. -/
def unquote (raw : List Char) : List Char := unquoteFrom 0 raw

/-- Splits off a raw string, after its opening quotation mark. -/
def scanString : List Char → Option (List Char × List Char)
  | [] => none
  | '"' :: rest => some ([], rest)
  | '\\' :: 'u' :: a :: b :: c :: d :: rest =>
      if isHex a ∧ isHex b ∧ isHex c ∧ isHex d then
        (scanString rest).map fun s => ('\\' :: 'u' :: a :: b :: c :: d :: s.1, s.2)
      else none
  | '\\' :: letter :: rest =>
      if letter ∈ shortEscapes.map Prod.snd then
        (scanString rest).map fun s => ('\\' :: letter :: s.1, s.2)
      else none
  | c :: rest =>
      if 0x20 ≤ c.toNat then (scanString rest).map fun s => (c :: s.1, s.2) else none

theorem hexValue_hexDigit : ∀ n < 16, hexValue (hexDigit n) = n := by decide

/-- Four digits are read back as the code unit they were printed from. -/
theorem codeUnit_digits {n : Nat} (h : n < 65536) (rest : List Char) :
    codeUnit (hexDigit (n / 4096 % 16) :: hexDigit (n / 256 % 16) :: hexDigit (n / 16 % 16)
      :: hexDigit (n % 16) :: rest) = n := by
  have hmod : ∀ m : Nat, m % 16 < 16 := fun m => Nat.mod_lt _ (by decide)
  rw [codeUnit, hexValue_hexDigit _ (hmod _), hexValue_hexDigit _ (hmod _),
    hexValue_hexDigit _ (hmod _), hexValue_hexDigit _ (hmod _)]
  omega

/-- The three shapes a printed character has. -/
theorem quoteChar_cases (c : Char) :
    (∃ letter, quoteChar c = ['\\', letter] ∧ (c, letter) ∈ shortEscapes)
      ∨ (quoteChar c = unicodeEscape c.toNat ∧ c.toNat < 65536)
      ∨ (quoteChar c = [c] ∧ c ≠ '"' ∧ c ≠ '\\' ∧ 0x20 ≤ c.toNat) := by
  rw [quoteChar]
  split
  · next _ letter hfind =>
      -- a short escape, found in the table
      have hmem := List.mem_of_find?_eq_some hfind
      have hchar := List.find?_some hfind
      rw [Bool.and_eq_true, beq_iff_eq] at hchar
      exact Or.inl ⟨letter, rfl, hchar.1 ▸ hmem⟩
  · next hnone =>
      have hfree := List.find?_eq_none.mp hnone
      split
      · next hguarded =>
          refine Or.inr (Or.inl ⟨rfl, ?_⟩)
          -- a control character, or one that the printer never writes as it is
          rcases hguarded with hcontrol | hmem
          · omega
          · have hall : guardedChars.all (fun d => d.toNat < 65536) = true := by decide
            exact of_decide_eq_true (List.all_eq_true.mp hall c hmem)
      · next hplain =>
          refine Or.inr (Or.inr ⟨rfl, ?_, ?_, Nat.le_of_not_lt fun h => hplain (Or.inl h)⟩)
          -- a quotation mark and a backslash have short escapes, so neither is plain
          · rintro rfl
            exact hfree ('"', '"') (by decide) (by decide)
          · rintro rfl
            exact hfree ('\\', '\\') (by decide) (by decide)

theorem escape_short : ∀ e ∈ shortEscapes, ∀ rest, escape (e.2 :: rest) = (e.1, 1) := by
  intro e he rest
  fin_cases he <;> rfl

/-- A character is no surrogate. -/
theorem not_surrogate (c : Char) : isSurrogate c.toNat = false := by
  have hvalid : c.toNat < 0xD800 ∨ 0xDFFF < c.toNat ∧ c.toNat < 0x110000 := c.valid
  rw [isSurrogate]
  refine decide_eq_false ?_
  omega

/-- A `\u` escape of a character is read back. -/
theorem escape_unicode {c : Char} (h : c.toNat < 65536) (rest : List Char) :
    escape ((unicodeEscape c.toNat).drop 1 ++ rest) = (c, 5) := by
  have hunit := codeUnit_digits h rest
  show escape ('u' :: (hexDigit (c.toNat / 4096 % 16) :: hexDigit (c.toNat / 256 % 16)
    :: hexDigit (c.toNat / 16 % 16) :: hexDigit (c.toNat % 16) :: rest)) = (c, 5)
  simp only [escape, hunit, not_surrogate c, Char.ofNat_toNat]
  rfl

/-- One printed character is read back, whatever follows. -/
theorem unquote_quoteChar (c : Char) (rest : List Char) :
    unquoteFrom 0 (quoteChar c ++ rest) = c :: unquoteFrom 0 rest := by
  rcases quoteChar_cases c with ⟨letter, hquote, hmem⟩ | ⟨hquote, hsmall⟩ | ⟨hquote, -, hback, -⟩
  · rw [hquote]
    show unquoteFrom 0 ('\\' :: letter :: rest) = _
    rw [unquoteFrom, if_pos rfl, escape_short _ hmem]
    rfl
  · rw [hquote]
    show unquoteFrom 0 ('\\' :: ((unicodeEscape c.toNat).drop 1 ++ rest)) = _
    rw [unquoteFrom, if_pos rfl, escape_unicode hsmall]
    rfl
  · rw [hquote, List.singleton_append, unquoteFrom, if_neg hback]

/-- **A string is read back** as it was printed. -/
theorem unquote_quote (text : List Char) : unquote (quote text) = text := by
  induction text with
  | nil => rfl
  | cons c rest ih =>
      rw [unquote, quote, List.flatMap_cons, unquote_quoteChar]
      exact congrArg (c :: ·) ih

/-- A text without special characters is printed as it stands. -/
theorem quote_plain {text : List Char} (h : ∀ c ∈ text, quoteChar c = [c]) : quote text = text := by
  induction text with
  | nil => rfl
  | cons c rest ih =>
      obtain ⟨hc, hrest⟩ := List.forall_mem_cons.mp h
      rw [quote, List.flatMap_cons, hc]
      exact congrArg (c :: ·) (ih hrest)

theorem isHex_hexDigit : ∀ n < 16, isHex (hexDigit n) = true := by decide

/-- Splitting passes over a printed character. -/
theorem scanString_quoteChar (c : Char) (rest : List Char) :
    scanString (quoteChar c ++ rest) = (scanString rest).map fun s =>
        (quoteChar c ++ s.1, s.2) := by
  rcases quoteChar_cases c with ⟨letter, hquote, hmem⟩ | ⟨hquote, -⟩ | ⟨hquote, hmark, hback, hle⟩
  · rw [hquote]
    fin_cases hmem <;> rfl
  · have hmod : ∀ m : Nat, m % 16 < 16 := fun m => Nat.mod_lt _ (by decide)
    have hhex : ∀ m : Nat, isHex (hexDigit (m % 16)) = true := fun m => isHex_hexDigit _ (hmod m)
    rw [hquote]
    exact if_pos ⟨hhex _, hhex _, hhex _, hhex _⟩
  · rw [hquote, List.singleton_append, scanString, if_pos hle]
    · rfl
    · exact fun h => absurd h hmark
    · exact fun _ _ _ _ _ h => absurd h hback
    · exact fun _ _ h => absurd h hback

/-- The scanner stops at the closing quote of a printed string, not inside it. -/
theorem scanString_quote (text rest : List Char) :
    scanString (quote text ++ '"' :: rest) = some (quote text, rest) := by
  induction text with
  | nil => rfl
  | cons c more ih =>
      rw [quote, List.flatMap_cons, List.append_assoc, scanString_quoteChar]
      rw [quote] at ih
      rw [ih]
      rfl

/-! ## Numbers -/

/-- An exponent after a number, when there is one. -/
def scanExponent (raw : List Char) : List Char → Option (List Char × List Char)
  | e :: rest =>
      if e = 'e' ∨ e = 'E' then
        let sign := (rest.take 1).filter fun c => c = '+' ∨ c = '-'
        let digits := rest.drop sign.length
        if digits.takeWhile isDigit = [] then none
        else some (raw ++ e :: sign ++ digits.takeWhile isDigit, digits.dropWhile isDigit)
      else some (raw, e :: rest)
  | [] => some (raw, [])

/-- A fraction and an exponent after a number, when there are. -/
def scanFraction (raw : List Char) : List Char → Option (List Char × List Char)
  | dot :: rest =>
      if dot = '.' then
        if rest.takeWhile isDigit = [] then none
        else scanExponent (raw ++ '.' :: rest.takeWhile isDigit) (rest.dropWhile isDigit)
      else scanExponent raw (dot :: rest)
  | [] => scanExponent raw []

/-- The digits before the dot: a zero, or digits that do not start with one. -/
def scanUnsigned (sign : List Char) : List Char → Option (List Char × List Char)
  | c :: rest =>
      if c = '0' then scanFraction (sign ++ ['0']) rest
      else if isDigit c then
        scanFraction (sign ++ (c :: rest).takeWhile isDigit) ((c :: rest).dropWhile isDigit)
      else none
  | [] => none

/-- Splits off a raw number. -/
def scanNumber : List Char → Option (List Char × List Char)
  | c :: rest => if c = '-' then scanUnsigned ['-'] rest else scanUnsigned [] (c :: rest)
  | [] => none

/-- What may stand after a value in a printed object. -/
def Follows (rest : List Char) : Prop := ∃ c more, rest = c :: more ∧ (c = ',' ∨ c = '}')

/-- What may follow a number is neither a digit nor a part of one. -/
theorem follows_free {rest : List Char} (h : Follows rest) :
    ∃ c more, rest = c :: more ∧ isDigit c = false ∧ c ≠ '.' ∧ c ≠ 'e' ∧ c ≠ 'E' := by
  obtain ⟨c, more, hrest, hc⟩ := h
  refine ⟨c, more, hrest, ?_⟩
  rcases hc with rfl | rfl <;> decide

/-- No fraction and no exponent is found there. -/
theorem scanFraction_follows {rest : List Char} (h : Follows rest) (raw : List Char) :
    scanFraction raw rest = some (raw, rest) := by
  obtain ⟨c, more, hrest, -, hdot, he, hE⟩ := follows_free h
  rw [hrest, scanFraction, if_neg hdot, scanExponent, if_neg (not_or.mpr ⟨he, hE⟩)]

/-- The digits end where the number was printed to its end. -/
theorem takeWhile_digits {ds rest : List Char} (hds : ∀ c ∈ ds, isDigit c = true)
    (h : Follows rest) :
    (ds ++ rest).takeWhile isDigit = ds ∧ (ds ++ rest).dropWhile isDigit = rest := by
  obtain ⟨c, more, hrest, hdigit, -⟩ := follows_free h
  rw [List.takeWhile_append_of_pos hds, List.dropWhile_append_of_pos hds, hrest,
    List.takeWhile_cons_of_neg (Bool.eq_false_iff.mp hdigit),
    List.dropWhile_cons_of_neg (Bool.eq_false_iff.mp hdigit)]
  exact ⟨List.append_nil ds, rfl⟩

/-- A printed natural number is scanned whole. -/
theorem scanUnsigned_printNat (n : Nat) {rest : List Char} (h : Follows rest) (sign : List Char) :
    scanUnsigned sign (printNat n ++ rest) = some (sign ++ printNat n, rest) := by
  by_cases hzero : n = 0
  · rw [hzero]
    exact scanFraction_follows h _
  · obtain ⟨c, more, hcons, hdigit, hne⟩ := printNat_head hzero
    have hsplit := takeWhile_digits (isDigit_printNat n) h
    rw [hcons] at hsplit ⊢
    rw [List.cons_append] at hsplit ⊢
    rw [scanUnsigned, if_neg hne, if_pos hdigit, hsplit.1, hsplit.2]
    exact scanFraction_follows h _

/-- A printed number is scanned whole, with its sign. -/
theorem scanNumber_printInt (n : Int) {rest : List Char} (h : Follows rest) :
    scanNumber (printInt n ++ rest) = some (printInt n, rest) := by
  rw [printInt]
  split
  · rw [List.cons_append, scanNumber, if_pos rfl]
    exact scanUnsigned_printNat _ h _
  · obtain ⟨c, more, hcons, hdigit⟩ := printNat_cons n.natAbs
    have hscan := scanUnsigned_printNat n.natAbs h []
    rw [hcons] at hscan ⊢
    rw [List.cons_append] at hscan ⊢
    rw [scanNumber, if_neg (not_minus hdigit)]
    exact hscan

/-! ## Values -/

/-- A JSON text as a tree; names, strings and numbers stay raw. -/
inductive Json where
  | null
  | bool (b : Bool)
  | num (raw : List Char)
  | str (raw : List Char)
  | arr (items : List Json)
  | obj (members : List (List Char × Json))

/-- The four characters between tokens. -/
def isSpace (c : Char) : Bool := c ∈ [' ', '\t', '\n', '\r']

/-- The text after them. -/
def skipSpace (text : List Char) : List Char := text.dropWhile isSpace

/-- A word after its first letter. -/
def keyword (word : String) (j : Json) (text : List Char) : Option (Json × List Char) :=
  if word.toList.isPrefixOf text then some (j, text.drop word.toList.length) else none

mutual

/-- Splits off a value.  `depth` is how far objects and arrays may still nest; every
    call uses up a character, so a `fuel` above the length never runs out. -/
def value : Nat → Nat → List Char → Option (Json × List Char)
  | 0, _, _ => none
  | _ + 1, _, [] => none
  | fuel + 1, depth, c :: text =>
      if c = '"' then (scanString text).map fun s => (.str s.1, s.2)
      else if c = '{' then
        if depth = 0 then none
        else if (skipSpace text).head? = some '}' then some (.obj [], (skipSpace text).drop 1)
        else (members fuel (depth - 1) (skipSpace text)).map fun m => (.obj m.1, m.2)
      else if c = '[' then
        if depth = 0 then none
        else if (skipSpace text).head? = some ']' then some (.arr [], (skipSpace text).drop 1)
        else (elements fuel (depth - 1) (skipSpace text)).map fun e => (.arr e.1, e.2)
      else if c = 't' then keyword "rue" (.bool true) text
      else if c = 'f' then keyword "alse" (.bool false) text
      else if c = 'n' then keyword "ull" .null text
      else (scanNumber (c :: text)).map fun n => (.num n.1, n.2)

/-- The members of an object up to its closing brace, at least one. -/
def members : Nat → Nat → List Char → Option (List (List Char × Json) × List Char)
  | 0, _, _ => none
  | _ + 1, _, [] => none
  | fuel + 1, depth, mark :: text => do
      if mark ≠ '"' then none
      else
        let (name, rest) ← scanString text
        let (v, rest) ← match skipSpace rest with
          | ':' :: more => value fuel depth (skipSpace more)
          | _ => none
        match skipSpace rest with
        | ',' :: more => (members fuel depth (skipSpace more)).map fun m => ((name, v) :: m.1, m.2)
        | '}' :: more => some ([(name, v)], more)
        | _ => none

/-- The elements of an array up to its closing bracket, at least one. -/
def elements : Nat → Nat → List Char → Option (List Json × List Char)
  | 0, _, _ => none
  | fuel + 1, depth, text => do
      let (v, rest) ← value fuel depth text
      match skipSpace rest with
      | ',' :: more => (elements fuel depth (skipSpace more)).map fun e => (v :: e.1, e.2)
      | ']' :: more => some ([v], more)
      | _ => none

end

/-- How far a text may nest. -/
def maxNestingDepth : Nat := 10000

/-- A text is one value with space around it. -/
def parse (text : List Char) : Option Json :=
  match value (text.length + 1) maxNestingDepth (skipSpace text) with
  | some (j, rest) => if skipSpace rest = [] then some j else none
  | none => none

/-! ## Printing -/

/-- A member of an object: its name, the text of its value and what that text says. -/
structure Member where
  name : List Char
  text : List Char
  value : Json

/-- A string with its quotes. -/
def printString (text : List Char) : List Char := '"' :: (quote text ++ ['"'])

/-- A member: its name, a colon, its text. -/
def Member.print (m : Member) : List Char := printString m.name ++ ':' :: m.text

/-- The text of members up to the closing brace. -/
def printMembers : List Member → List Char
  | [] => ['}']
  | [m] => m.print ++ ['}']
  | m :: rest => m.print ++ ',' :: printMembers rest

/-- An object without white space. -/
def printObject (ms : List Member) : List Char := '{' :: printMembers ms

/-- A member as it is parsed. -/
def Member.parsed (m : Member) : List Char × Json := (quote m.name, m.value)

/-- A text that is read as a value wherever a printed object may hold it. -/
structure Prints (text : List Char) (j : Json) : Prop where
  start : ∃ c more, text = c :: more ∧ isSpace c = false
  read : ∀ fuel depth rest, Follows rest → value (fuel + 1) depth (text ++ rest) = some (j, rest)

/-- A printed string is parsed as that string. -/
theorem prints_string (text : List Char) : Prints (printString text) (.str (quote text)) where
  start := ⟨'"', _, rfl, by decide⟩
  read fuel depth rest _ := by
    rw [printString, List.cons_append, List.append_assoc, value, if_pos rfl, List.singleton_append,
      scanString_quote]
    rfl

/-- Neither a minus sign nor a digit starts anything but a number. -/
theorem number_start {c : Char} (h : c = '-' ∨ isDigit c = true) :
    c ≠ '"' ∧ c ≠ '{' ∧ c ≠ '[' ∧ c ≠ 't' ∧ c ≠ 'f' ∧ c ≠ 'n' ∧ isSpace c = false := by
  have hspace : isSpace c = false := by
    refine decide_eq_false fun hmem => ?_
    rcases h with rfl | hdigit
    · exact absurd hmem (by decide)
    · have hall : [' ', '\t', '\n', '\r'].all (fun d => !isDigit d) = true := by decide
      have hfree := List.all_eq_true.mp hall c hmem
      rw [hdigit] at hfree
      exact Bool.false_ne_true hfree
  refine ⟨?_, ?_, ?_, ?_, ?_, ?_, hspace⟩ <;>
  · rintro rfl
    exact absurd h (by decide)

/-- A printed number is parsed as that number. -/
theorem prints_int (n : Int) : Prints (printInt n) (.num (printInt n)) := by
  obtain ⟨c, more, hcons, hstart⟩ :
      ∃ c more, printInt n = c :: more ∧ (c = '-' ∨ isDigit c = true) := by
    rw [printInt]
    split
    · exact ⟨'-', _, rfl, Or.inl rfl⟩
    · obtain ⟨c, more, hcons, hdigit⟩ := printNat_cons n.natAbs
      exact ⟨c, more, hcons, Or.inr hdigit⟩
  obtain ⟨hmark, hbrace, hbracket, ht, hf, hn, hspace⟩ := number_start hstart
  refine ⟨⟨c, more, hcons, hspace⟩, fun fuel depth rest hrest => ?_⟩
  have hscan := scanNumber_printInt n hrest
  rw [hcons] at hscan ⊢
  rw [List.cons_append] at hscan ⊢
  rw [value, if_neg hmark, if_neg hbrace, if_neg hbracket, if_neg ht, if_neg hf, if_neg hn, hscan]
  rfl

/-- A printed value starts with its first character, not with space. -/
theorem skipSpace_start {text : List Char} (h : ∃ c more, text = c :: more ∧ isSpace c = false)
    (rest : List Char) : skipSpace (text ++ rest) = text ++ rest := by
  obtain ⟨c, more, rfl, hspace⟩ := h
  exact List.dropWhile_cons_of_neg (Bool.eq_false_iff.mp hspace)

/-- Nothing is skipped where no space stands. -/
theorem skipSpace_cons {c : Char} (h : isSpace c = false) (rest : List Char) :
    skipSpace (c :: rest) = c :: rest :=
  List.dropWhile_cons_of_neg (Bool.eq_false_iff.mp h)

/-- A member with more behind it. -/
theorem members_comma {m : Member} (hm : Prints m.text m.value) (fuel depth : Nat)
    (more : List Char) :
    members (fuel + 2) depth (m.print ++ ',' :: more)
      = (members (fuel + 1) depth (skipSpace more)).map fun s => (m.parsed :: s.1, s.2) := by
  have hread := hm.read fuel depth (',' :: more) ⟨',', more, rfl, Or.inl rfl⟩
  have hcolon : isSpace ':' = false := by decide
  have hcomma : isSpace ',' = false := by decide
  rw [Member.print, printString, List.cons_append, List.cons_append, List.append_assoc,
    List.append_assoc, List.singleton_append, members, if_neg (by decide), scanString_quote]
  simp only [Option.bind_eq_bind, Option.bind_some, List.cons_append, skipSpace_cons hcolon,
    skipSpace_start hm.start, hread, skipSpace_cons hcomma]
  rfl

/-- The last member. -/
theorem members_brace {m : Member} (hm : Prints m.text m.value) (fuel depth : Nat)
    (more : List Char) :
    members (fuel + 2) depth (m.print ++ '}' :: more) = some ([m.parsed], more) := by
  have hread := hm.read fuel depth ('}' :: more) ⟨'}', more, rfl, Or.inr rfl⟩
  have hcolon : isSpace ':' = false := by decide
  have hbrace : isSpace '}' = false := by decide
  rw [Member.print, printString, List.cons_append, List.cons_append, List.append_assoc,
    List.append_assoc, List.singleton_append, members, if_neg (by decide), scanString_quote]
  simp only [Option.bind_eq_bind, Option.bind_some, List.cons_append, skipSpace_cons hcolon,
    skipSpace_start hm.start, hread, skipSpace_cons hbrace]
  rfl

/-- The text of members starts with a name. -/
theorem printMembers_start (ms : List Member) (hne : ms ≠ []) :
    ∃ c more, printMembers ms = c :: more ∧ isSpace c = false := by
  cases ms with
  | nil => exact absurd rfl hne
  | cons m more => cases more <;> exact ⟨'"', _, rfl, by decide⟩

/-- **The members of a printed object are parsed back**, by induction on the list. -/
theorem members_print (ms : List Member) (hne : ms ≠ []) (hms : ∀ m ∈ ms, Prints m.text m.value)
    (depth : Nat) (rest : List Char) :
    ∀ fuel, ms.length < fuel →
      members fuel depth (printMembers ms ++ rest) = some (ms.map Member.parsed, rest) := by
  induction ms with
  | nil => exact absurd rfl hne
  | cons m more ih =>
      intro fuel hfuel
      obtain ⟨fuel, rfl⟩ : ∃ n, fuel = n + 2 := ⟨fuel - 2, by rw [List.length_cons] at hfuel; omega⟩
      obtain ⟨hm, hmore⟩ := List.forall_mem_cons.mp hms
      cases more with
      | nil =>
          -- the last member ends at the brace
          rw [printMembers, List.append_assoc, List.singleton_append, members_brace hm]
          rfl
      | cons m' more =>
          have hnext :
              printMembers (m :: m' :: more) = m.print ++ ',' :: printMembers (m' :: more) :=
            rfl
          -- any other at a comma, and the members behind it are parsed with less fuel
          have hstart := printMembers_start (m' :: more) (List.cons_ne_nil m' more)
          rw [hnext, List.append_assoc, List.cons_append, members_comma hm,
            skipSpace_start hstart, ih (List.cons_ne_nil m' more) hmore (fuel + 1) ?_]
          · rfl
          · rw [List.length_cons] at hfuel
            omega

/-- The text is long enough for its fuel. -/
theorem length_printMembers (ms : List Member) : ms.length ≤ (printMembers ms).length := by
  induction ms with
  | nil => exact Nat.zero_le _
  | cons m more ih =>
      cases more with
      | nil =>
          rw [printMembers, List.length_append]
          exact Nat.le_add_left _ _
      | cons m' more =>
          have hnext :
              printMembers (m :: m' :: more) = m.print ++ ',' :: printMembers (m' :: more) :=
            rfl
          rw [hnext, List.length_append, List.length_cons (a := ','), List.length_cons (a := m)]
          omega

/-- **Round trip**: a printed object is parsed into its members. -/
theorem parse_printObject {ms : List Member} (hms : ∀ m ∈ ms, Prints m.text m.value) :
    parse (printObject ms) = some (.obj (ms.map Member.parsed)) := by
  have hvalue : value ((printObject ms).length + 1) maxNestingDepth (printObject ms)
      = some (.obj (ms.map Member.parsed), []) := by
    rw [printObject, value, if_neg (by decide), if_pos rfl, if_neg (by decide)]
    cases ms with
    | nil => rfl
    | cons m more =>
        have hne : m :: more ≠ [] := List.cons_ne_nil m more
        have hstart := printMembers_start (m :: more) hne
        -- the braces take one level of depth, the members the rest of the fuel
        have hread := members_print (m :: more) hne hms (maxNestingDepth - 1) []
          ((printMembers (m :: more)).length + 1) (Nat.lt_succ_of_le (length_printMembers _))
        have hskip := skipSpace_start hstart []
        rw [List.append_nil] at hread hskip
        obtain ⟨rest, hcons⟩ : ∃ rest, printMembers (m :: more) = '"' :: rest := by
          cases more <;> exact ⟨_, rfl⟩
        rw [hskip, if_neg]
        · rw [List.length_cons, hread]
          rfl
        · rw [hcons]
          exact fun h => absurd (Option.some_inj.mp h) (by decide)
  have hskip : skipSpace (printObject ms) = printObject ms :=
    skipSpace_cons (by decide : isSpace '{' = false) (printMembers ms)
  rw [parse, hskip, hvalue]
  rfl

end JsonText
