import Mathlib.Data.List.Forall2
import Mathlib.Data.List.Infix

/-! # LIKE patterns — `text LIKE pattern ESCAPE c`

    A pattern is a sequence of literal characters, `_` and `%`, with an escape
    character that makes the next one literal.  Matching goes character by
    character under an equality the collation supplies, which may be coarser than
    identity.  The main fact is about the pattern of an escaped prefix followed by
    `%`: it matches exactly the texts that begin with the prefix up to that
    equality, whatever wildcards the prefix contains (`like_prefix_iff`).

    Parsing turns an escaped value into its own characters (`parse_escapeValue`); a
    literal part then takes as many characters as it has (`tokensMatch_literal`) and
    `%` any part of what is left (`tokensMatch_any`). -/

namespace LikePattern

/-- What an element of a pattern stands for: a character, any one character, any text. -/
inductive Token where
  | char (c : Char)
  | one
  | many
  deriving DecidableEq

/-- The tokens of a pattern; an escape character at the very end stands for itself. -/
def parse (escape : Char) : List Char → List Token
  | [] => []
  | [c] => if c = escape then [.char c] else if c = '%' then [.many] else if c = '_' then [.one]
    else [.char c]
  | c :: d :: rest =>
      if c = escape then .char d :: parse escape rest
      else if c = '%' then .many :: parse escape (d :: rest)
      else if c = '_' then .one :: parse escape (d :: rest)
      else .char c :: parse escape (d :: rest)

/-- Matching under the character equality `same`. -/
def tokensMatch (same : Char → Char → Bool) : List Token → List Char → Bool
  | [], text => text.isEmpty
  | .char c :: rest, text =>
      match text with
      | [] => false
      | d :: text => same c d && tokensMatch same rest text
  | .one :: rest, text =>
      match text with
      | [] => false
      | _ :: text => tokensMatch same rest text
  | .many :: rest, text => text.tails.any (tokensMatch same rest)

/-- `text LIKE pattern ESCAPE escape`. -/
def like (same : Char → Char → Bool) (escape : Char) (pattern text : List Char) : Bool :=
  tokensMatch same (parse escape pattern) text

/-- `c` needs the escape character to stand for itself. -/
def special (escape c : Char) : Bool := c == escape || c == '%' || c == '_'

/-- The value as a literal pattern. -/
def escapeValue (escape : Char) (value : List Char) : List Char :=
  value.flatMap fun c => if special escape c then [escape, c] else [c]

/-- `text` begins with `value` up to `same`. -/
def startsLike (same : Char → Char → Bool) : List Char → List Char → Bool
  | [], _ => true
  | _ :: _, [] => false
  | c :: value, d :: text => same c d && startsLike same value text

variable {same : Char → Char → Bool} {escape : Char}

/-- An ordinary character stands for itself. -/
theorem parse_cons_literal {c : Char} (h : special escape c = false) (rest : List Char) :
    parse escape (c :: rest) = .char c :: parse escape rest := by
  rw [special, Bool.or_eq_false_iff, Bool.or_eq_false_iff] at h
  obtain ⟨⟨h1, h2⟩, h3⟩ := h
  have h1 : c ≠ escape := by simpa using h1
  have h2 : c ≠ '%' := by simpa using h2
  have h3 : c ≠ '_' := by simpa using h3
  cases rest with
  | nil => simp [parse, h1, h2, h3]
  | cons d rest => simp [parse, h1, h2, h3]

/-- A character behind the escape character stands for itself. -/
theorem parse_escaped (c : Char) (rest : List Char) :
    parse escape (escape :: c :: rest) = .char c :: parse escape rest := by
  simp [parse]

/-- An escaped value parses to its own characters. -/
theorem parse_escapeValue (value pattern : List Char) :
    parse escape (escapeValue escape value ++ pattern)
      = value.map .char ++ parse escape pattern := by
  induction value with
  | nil => rfl
  | cons c value ih =>
      rw [escapeValue, List.flatMap_cons, List.append_assoc]
      cases h : special escape c with
      | true =>
          rw [if_pos rfl]
          show parse escape (escape :: c :: (escapeValue escape value ++ pattern)) = _
          rw [parse_escaped, ih]
          rfl
      | false =>
          rw [if_neg Bool.false_ne_true]
          show parse escape (c :: (escapeValue escape value ++ pattern)) = _
          rw [parse_cons_literal h, ih]
          rfl

theorem tokensMatch_many (text : List Char) : tokensMatch same [.many] text = true := by
  rw [tokensMatch, List.any_eq_true]
  exact ⟨[], (List.mem_tails _ _).mpr List.nil_suffix, rfl⟩

/-- Characters and a `%` behind them match the texts that begin with the characters. -/
theorem tokensMatch_prefix (value text : List Char) :
    tokensMatch same (value.map .char ++ [.many]) text = startsLike same value text := by
  induction value generalizing text with
  | nil => rw [startsLike]; exact tokensMatch_many text
  | cons c value ih =>
      cases text with
      | nil => rfl
      | cons d text =>
          rw [startsLike, ← ih]
          rfl

/-- **The prefix pattern.**  `escape(value)%` matches the texts that begin with
    `value`. -/
theorem like_prefix (hescape : escape ≠ '%') (value text : List Char) :
    like same escape (escapeValue escape value ++ ['%']) text = startsLike same value text := by
  have hpercent : parse escape ['%'] = [.many] := by
    rw [parse, if_neg (Ne.symm hescape)]
    rfl
  rw [like, parse_escapeValue, hpercent, tokensMatch_prefix]

/-- Beginning with a text, up to the equality, in terms of a front of the text. -/
theorem startsLike_iff (value text : List Char) : startsLike same value text = true ↔
    ∃ front back, text = front ++ back
      ∧ List.Forall₂ (fun c d => same c d = true) value front := by
  induction value generalizing text with
  | nil => exact ⟨fun _ => ⟨[], text, rfl, .nil⟩, fun _ => rfl⟩
  | cons c value ih =>
      cases text with
      | nil =>
          constructor
          · exact nofun
          · rintro ⟨front, back, heq, hall⟩
            cases hall with
            | cons _ _ => exact nomatch heq
      | cons d text =>
          -- one character on each side, and the rest by induction
          rw [startsLike, Bool.and_eq_true, ih]
          constructor
          · rintro ⟨hsame, front, back, rfl, hall⟩
            exact ⟨d :: front, back, rfl, .cons hsame hall⟩
          · rintro ⟨front, back, heq, hall⟩
            cases hall with
            | cons hsame hall =>
                obtain ⟨rfl, rfl⟩ := List.cons.inj heq
                exact ⟨hsame, _, back, rfl, hall⟩

/-- Under a reflexive equality a real prefix is found. -/
theorem startsLike_of_prefix (hrefl : ∀ c, same c c = true) {value text : List Char}
    (h : value <+: text) : startsLike same value text = true := by
  obtain ⟨back, rfl⟩ := h
  exact (startsLike_iff _ _).mpr ⟨value, back, rfl, List.forall₂_same.mpr fun c _ => hrefl c⟩

/-! ## Wildcards around literals -/

/-- A literal part takes as many characters as it has. -/
theorem tokensMatch_literal (value : List Char) (rest : List Token) (text : List Char) :
    tokensMatch same (value.map .char ++ rest) text = true ↔
      ∃ front back, text = front ++ back
        ∧ List.Forall₂ (fun c d => same c d = true) value front
        ∧ tokensMatch same rest back = true := by
  induction value generalizing text with
  | nil =>
      constructor
      · exact fun h => ⟨[], text, rfl, .nil, h⟩
      · rintro ⟨front, back, rfl, hall, h⟩
        cases hall
        exact h
  | cons c value ih =>
      cases text with
      | nil =>
          constructor
          · exact nofun
          · rintro ⟨front, back, heq, hall, -⟩
            cases hall
            exact nomatch heq
      | cons d text =>
          show (same c d && tokensMatch same (value.map .char ++ rest) text) = true ↔ _
          -- one character on each side, and the rest by induction
          rw [Bool.and_eq_true, ih]
          constructor
          · rintro ⟨hsame, front, back, rfl, hall, h⟩
            exact ⟨d :: front, back, rfl, .cons hsame hall, h⟩
          · rintro ⟨front, back, heq, hall, h⟩
            cases hall with
            | cons hsame hall =>
                obtain ⟨rfl, rfl⟩ := List.cons.inj heq
                exact ⟨hsame, _, back, rfl, hall, h⟩

/-- `%` takes any part of the text. -/
theorem tokensMatch_any (rest : List Token) (text : List Char) :
    tokensMatch same (.many :: rest) text = true ↔
      ∃ front back, text = front ++ back ∧ tokensMatch same rest back = true := by
  rw [tokensMatch, List.any_eq_true]
  constructor
  · rintro ⟨back, hback, h⟩
    obtain ⟨front, rfl⟩ := (List.mem_tails _ _).mp hback
    exact ⟨front, back, rfl, h⟩
  · rintro ⟨front, back, rfl, h⟩
    exact ⟨back, (List.mem_tails _ _).mpr (List.suffix_append _ _), h⟩

/-- The wildcard, when it is not the escape character itself. -/
theorem parse_percent (hescape : escape ≠ '%') (pattern : List Char) :
    parse escape ('%' :: pattern) = .many :: parse escape pattern := by
  cases pattern with
  | nil => simp [parse, Ne.symm hescape]
  | cons d rest => simp [parse, Ne.symm hescape]

/-- **The prefix pattern**, as what stands in the text. -/
theorem like_prefix_iff (hescape : escape ≠ '%') (value text : List Char) :
    like same escape (escapeValue escape value ++ ['%']) text = true ↔
      ∃ front back, text = front ++ back
        ∧ List.Forall₂ (fun c d => same c d = true) value front := by
  rw [like, parse_escapeValue, parse_percent hescape, tokensMatch_literal]
  constructor
  · rintro ⟨front, back, htext, hall, -⟩
    exact ⟨front, back, htext, hall⟩
  · rintro ⟨front, back, htext, hall⟩
    exact ⟨front, back, htext, hall, tokensMatch_many back⟩

/-- **The contains pattern.**  `%escape(value)%` matches the texts in which `value`
    occurs. -/
theorem like_contains_iff (hescape : escape ≠ '%') (value text : List Char) :
    like same escape ('%' :: (escapeValue escape value ++ ['%'])) text = true ↔
      ∃ front found back, text = front ++ (found ++ back)
        ∧ List.Forall₂ (fun c d => same c d = true) value found := by
  rw [like, parse_percent hescape, tokensMatch_any]
  constructor
  · rintro ⟨front, rest, rfl, h⟩
    obtain ⟨found, back, rfl, hall⟩ := (like_prefix_iff hescape value rest).mp h
    exact ⟨front, found, back, rfl, hall⟩
  · rintro ⟨front, found, back, rfl, hall⟩
    exact ⟨front, found ++ back, rfl,
      (like_prefix_iff hescape value _).mpr ⟨found, back, rfl, hall⟩⟩

end LikePattern
