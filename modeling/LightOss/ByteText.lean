import Mathlib.Data.List.GetD

/-! # Bytes as text — UTF-8, unpadded URL base64 and percent escapes

    Strings as the bytes a program sends, decoded the lenient way a library decodes
    what it did not write.  Decoding what was encoded gives the text back
    (`decodeUtf8_encodeUtf8`, `decodeBase64_encodeBase64`, `unescape_escape`), each by
    induction on what was encoded, one character, three bytes or one byte at a time.

    Valid text may be cut where a first byte stands and nowhere else: of the bytes of a
    character only the first begins one (`firstByte_iff`), so such a cut lies between
    characters (`cut_encodeUtf8`, `ValidUtf8.left_iff`). -/

namespace ByteText

/-! ## UTF-8 -/

/-- The bytes of a text. -/
def encodeUtf8 (text : List Char) : List UInt8 := text.flatMap String.utf8EncodeChar

/-- The first character and its width; a byte that starts none reads as U+FFFD. -/
def decodeRune (bytes : List UInt8) : Char × Nat :=
  match bytes.toByteArray.utf8DecodeChar? 0 with
  | some c => (c, c.utf8Size)
  | none => (Char.ofNat 0xFFFD, 1)

/-- The characters of the bytes, at most `fuel` of them. -/
def runes : Nat → List UInt8 → List Char
  | _, [] => []
  | 0, _ => []
  | fuel + 1, bytes => (decodeRune bytes).1 :: runes fuel (bytes.drop (decodeRune bytes).2)

/-- Every character takes a byte, so the length is fuel enough. -/
def decodeUtf8 (bytes : List UInt8) : List Char := runes bytes.length bytes

/-- The first rune of an encoded text is its first character. -/
theorem decodeRune_encoded (c : Char) (rest : List UInt8) :
    decodeRune (String.utf8EncodeChar c ++ rest) = (c, c.utf8Size) := by
  have hdecode : (String.utf8EncodeChar c ++ rest).toByteArray.utf8DecodeChar? 0 = some c := by
    rw [List.toByteArray_append]
    exact ByteArray.utf8DecodeChar?_utf8EncodeChar_append
  rw [decodeRune, hdecode]

/-- Decoding with enough fuel gives the text back, one rune at a time. -/
theorem runes_encoded (text : List Char) :
    ∀ fuel, (encodeUtf8 text).length ≤ fuel → runes fuel (encodeUtf8 text) = text := by
  induction text with
  | nil => exact fun fuel _ => by cases fuel <;> rfl
  | cons c rest ih =>
      intro fuel hfuel
      have hcons : encodeUtf8 (c :: rest) = String.utf8EncodeChar c ++ encodeUtf8 rest := rfl
      have hpos : 0 < (String.utf8EncodeChar c).length := by
        rw [String.length_utf8EncodeChar]
        exact c.utf8Size_pos
      rw [hcons, List.length_append] at hfuel
      obtain ⟨fuel, rfl⟩ : ∃ m, fuel = m + 1 := Nat.exists_eq_succ_of_ne_zero (by omega)
      have hne : String.utf8EncodeChar c ++ encodeUtf8 rest ≠ [] := by
        intro h
        rw [(List.append_eq_nil_iff.mp h).1] at hpos
        exact absurd hpos (Nat.lt_irrefl 0)
      rw [hcons, runes, decodeRune_encoded, ← String.length_utf8EncodeChar, List.drop_left,
        ih fuel (by omega)]
      exact hne

/-- **Decoding what was encoded** gives the text back. -/
theorem decodeUtf8_encodeUtf8 (text : List Char) : decodeUtf8 (encodeUtf8 text) = text :=
  runes_encoded text _ (Nat.le_refl _)

/-! ## Cutting UTF-8

    Bytes cut in two stay text on both sides exactly when the second part starts with
    the first byte of a character. -/

/-- The bytes are those of a text. -/
def ValidUtf8 (bytes : List UInt8) : Prop := ∃ text, encodeUtf8 text = bytes

/-- The first byte of what is left, if any, begins a character. -/
def StartsChar (bytes : List UInt8) : Prop := ∀ b ∈ bytes.head?, b.IsUTF8FirstByte

instance (bytes : List UInt8) : Decidable (StartsChar bytes) :=
  decidable_of_iff ((bytes.head?.all fun b => decide b.IsUTF8FirstByte) = true) (by
    rw [Option.all_eq_true]
    exact forall₂_congr fun _ _ => decide_eq_true_iff)

/-- Two texts are encoded one after the other. -/
theorem encodeUtf8_append (s t : List Char) :
    encodeUtf8 (s ++ t) = encodeUtf8 s ++ encodeUtf8 t := List.flatMap_append

/-- One character is encoded in front of the rest. -/
theorem encodeUtf8_cons (c : Char) (text : List Char) :
    encodeUtf8 (c :: text) = String.utf8EncodeChar c ++ encodeUtf8 text := rfl

/-- Of the bytes of a character only the first begins one. -/
theorem firstByte_iff {c : Char} {front back : List UInt8} {b : UInt8}
    (h : String.utf8EncodeChar c = front ++ b :: back) : b.IsUTF8FirstByte ↔ front = [] := by
  have hget : (String.utf8EncodeChar c)[front.length]? = some b := by
    rw [h, List.getElem?_append_right (Nat.le_refl _), Nat.sub_self]
    rfl
  obtain ⟨hlt, hb⟩ := List.getElem?_eq_some_iff.mp hget
  rw [← hb, UInt8.isUTF8FirstByte_getElem_utf8EncodeChar, List.length_eq_zero_iff]

/-- An encoded text begins with a first byte, or is empty. -/
theorem startsChar_encodeUtf8 (text : List Char) : StartsChar (encodeUtf8 text) := by
  cases text with
  | nil => exact nofun
  | cons c rest =>
      intro b hb
      rw [encodeUtf8_cons] at hb
      cases hc : String.utf8EncodeChar c with
      | nil => exact absurd hc String.utf8EncodeChar_ne_nil
      | cons first tail =>
          have hfront : String.utf8EncodeChar c = [] ++ first :: tail := hc
          rw [hc] at hb
          cases hb
          exact (firstByte_iff hfront).mpr rfl

/-- A cut before a first byte is a cut between characters. -/
theorem cut_encodeUtf8 {b : List UInt8} (hb : StartsChar b) : ∀ {text : List Char} {a : List UInt8},
    encodeUtf8 text = a ++ b → ∃ s t, encodeUtf8 s = a ∧ encodeUtf8 t = b := by
  intro text
  induction text with
  | nil =>
      intro a h
      obtain ⟨rfl, rfl⟩ := List.append_eq_nil_iff.mp h.symm
      exact ⟨[], [], rfl, rfl⟩
  | cons c rest ih =>
      intro a h
      rw [encodeUtf8_cons] at h
      -- the cut lies behind the first character, or in it or at its end
      rcases List.append_eq_append_iff.mp h with ⟨a', rfl, hrest⟩ | ⟨b', hc, rfl⟩
      · obtain ⟨s, t, rfl, ht⟩ := ih hrest
        exact ⟨c :: s, t, rfl, ht⟩
      · cases b' with
        | nil =>
            rw [List.append_nil] at hc
            exact ⟨[c], rest, by rw [encodeUtf8_cons, hc]; exact List.append_nil a, rfl⟩
        | cons first tail =>
            -- the first byte after the cut is the first of its character
            have hnil := (firstByte_iff hc).mp (hb first rfl)
            rw [hnil, List.nil_append] at hc
            exact ⟨[], c :: rest, hnil.symm, by rw [encodeUtf8_cons, hc]⟩

/-- What follows a text in a text is one. -/
theorem ValidUtf8.of_append {s : List Char} {b : List UInt8} (h : ValidUtf8 (encodeUtf8 s ++ b)) :
    ValidUtf8 b := by
  induction s with
  | nil => exact h
  | cons c rest ih =>
      obtain ⟨text, htext⟩ := h
      rw [encodeUtf8_cons, List.append_assoc] at htext
      cases text with
      | nil => exact absurd (List.append_eq_nil_iff.mp htext.symm).1 String.utf8EncodeChar_ne_nil
      | cons c' rest' =>
          rw [encodeUtf8_cons] at htext
          have hdecode := congrArg decodeRune htext
          rw [decodeRune_encoded, decodeRune_encoded] at hdecode
          rw [(Prod.mk.inj hdecode).1] at htext
          exact ih ⟨rest', List.append_cancel_left htext⟩

/-- Valid bytes that are cut before a first byte are valid on both sides. -/
theorem ValidUtf8.cut {a b : List UInt8} (h : ValidUtf8 (a ++ b)) (hb : StartsChar b) :
    ValidUtf8 a ∧ ValidUtf8 b := by
  obtain ⟨text, htext⟩ := h
  obtain ⟨s, t, hs, ht⟩ := cut_encodeUtf8 hb htext
  exact ⟨⟨s, hs⟩, t, ht⟩

/-- **Where text may be cut.** -/
theorem ValidUtf8.left_iff {a b : List UInt8} (h : ValidUtf8 (a ++ b)) :
    ValidUtf8 a ↔ StartsChar b := by
  constructor
  · rintro ⟨s, rfl⟩
    obtain ⟨t, rfl⟩ := h.of_append
    exact startsChar_encodeUtf8 t
  · exact fun hb => (h.cut hb).1

/-! ## Base64 -/

/-- The URL alphabet. -/
def alphabet : List Char :=
  "ABCDEFGHIJKLMNOPQRSTUVWXYZabcdefghijklmnopqrstuvwxyz0123456789-_".toList

/-- The symbol of six bits. -/
def symbol (n : Nat) : Char := alphabet.getD n 'A'

/-- The six bits of a symbol. -/
def value (c : Char) : Option Nat := alphabet.idxOf? c

/-- Three bytes are four sextets; one or two bytes left over are two or three. -/
def sextets : List UInt8 → List Nat
  | a :: b :: c :: rest =>
      a.toNat / 4 :: (a.toNat % 4 * 16 + b.toNat / 16) :: (b.toNat % 16 * 4 + c.toNat / 64)
        :: c.toNat % 64 :: sextets rest
  | [a, b] => [a.toNat / 4, a.toNat % 4 * 16 + b.toNat / 16, b.toNat % 16 * 4]
  | [a] => [a.toNat / 4, a.toNat % 4 * 16]
  | [] => []

/-- One sextet left over is an error; spare low bits are ignored. -/
def unsextets : List Nat → Option (List UInt8)
  | w :: x :: y :: z :: rest =>
      (unsextets rest).map fun bytes =>
        UInt8.ofNat (w * 4 + x / 16) :: UInt8.ofNat (x % 16 * 16 + y / 4)
          :: UInt8.ofNat (y % 4 * 64 + z) :: bytes
  | [w, x, y] => some [UInt8.ofNat (w * 4 + x / 16), UInt8.ofNat (x % 16 * 16 + y / 4)]
  | [w, x] => some [UInt8.ofNat (w * 4 + x / 16)]
  | [_] => none
  | [] => some []

/-- `base64.RawURLEncoding.EncodeToString`. -/
def encodeBase64 (bytes : List UInt8) : List Char := (sextets bytes).map symbol

/-- Line breaks are skipped wherever they stand. -/
def decodeBase64 (text : List Char) : Option (List UInt8) :=
  ((text.filter fun c => c ≠ '\n' ∧ c ≠ '\r').mapM value).bind unsextets

theorem sextets_lt : ∀ bytes : List UInt8, ∀ n ∈ sextets bytes, n < 64
  | a :: b :: c :: rest, n, hn => by
      have ha := a.toNat_lt
      have hb := b.toNat_lt
      simp only [sextets, List.mem_cons] at hn
      rcases hn with rfl | rfl | rfl | rfl | hn
      · omega
      · omega
      · have hc := c.toNat_lt
        omega
      · omega
      · exact sextets_lt rest n hn
  | [a, b], n, hn => by
      have ha := a.toNat_lt
      have hb := b.toNat_lt
      simp only [sextets, List.mem_cons, List.not_mem_nil, or_false] at hn
      omega
  | [a], n, hn => by
      have ha := a.toNat_lt
      simp only [sextets, List.mem_cons, List.not_mem_nil, or_false] at hn
      omega

/-- A byte that was taken apart and put together. -/
theorem ofNat_eq {n : Nat} {a : UInt8} (h : n = a.toNat) : UInt8.ofNat n = a := by
  rw [h, UInt8.ofNat_toNat]

/-- Eight bits are put together again, whatever the length is modulo three. -/
theorem unsextets_sextets : ∀ bytes : List UInt8, unsextets (sextets bytes) = some bytes
  | a :: b :: c :: rest => by
      have ha := a.toNat_lt
      have hb := b.toNat_lt
      have hc := c.toNat_lt
      rw [sextets, unsextets, unsextets_sextets rest, Option.map_some, ofNat_eq (a := a) (by omega),
        ofNat_eq (a := b) (by omega), ofNat_eq (a := c) (by omega)]
  | [a, b] => by
      have ha := a.toNat_lt
      have hb := b.toNat_lt
      rw [sextets, unsextets, ofNat_eq (a := a) (by omega), ofNat_eq (a := b) (by omega)]
  | [a] => by
      have ha := a.toNat_lt
      rw [sextets, unsextets, ofNat_eq (a := a) (by omega)]
  | [] => rfl

theorem value_symbol : ∀ n < 64, value (symbol n) = some n := by decide

/-- Every symbol is in the alphabet, which holds neither a line break nor a space. -/
theorem symbol_mem (n : Nat) : symbol n ∈ alphabet := by
  rw [symbol]
  rcases Nat.lt_or_ge n alphabet.length with h | h
  · rw [List.getD_eq_getElem _ _ h]
    exact List.getElem_mem h
  · rw [List.getD_eq_default _ _ h]
    decide

/-- What the characters of a list have in common, decided one by one. -/
theorem forall_chars {p : Char → Prop} [DecidablePred p] {l : List Char}
    (h : l.all (fun c => decide (p c)) = true) : ∀ c ∈ l, p c :=
  fun c hc => of_decide_eq_true (List.all_eq_true.mp h c hc)

/-- No symbol is one of the line ends that the decoder passes over. -/
theorem symbol_visible : ∀ c ∈ alphabet, c ≠ '\n' ∧ c ≠ '\r' := forall_chars (by decide)

theorem mapM_value (ns : List Nat) (h : ∀ n ∈ ns, n < 64) :
    (ns.map symbol).mapM value = some ns := by
  induction ns with
  | nil => rfl
  | cons n rest ih =>
      obtain ⟨hn, hrest⟩ := List.forall_mem_cons.mp h
      rw [List.map_cons, List.mapM_cons, value_symbol n hn, ih hrest]
      rfl

/-- **Decoding what was encoded** gives the bytes back. -/
theorem decodeBase64_encodeBase64 (bytes : List UInt8) :
    decodeBase64 (encodeBase64 bytes) = some bytes := by
  have hkeep : (encodeBase64 bytes).filter (fun c => c ≠ '\n' ∧ c ≠ '\r') = encodeBase64 bytes := by
    refine List.filter_eq_self.mpr fun c hc => ?_
    obtain ⟨n, -, rfl⟩ := List.mem_map.mp hc
    exact decide_eq_true (symbol_visible _ (symbol_mem n))
  rw [decodeBase64, hkeep, encodeBase64, mapM_value _ (sextets_lt bytes), Option.bind_some,
    unsextets_sextets]

theorem encodeBase64_ne_nil {bytes : List UInt8} (h : bytes ≠ []) : encodeBase64 bytes ≠ [] := by
  cases bytes with
  | nil => exact absurd rfl h
  | cons a rest => cases rest with
    | nil => nofun
    | cons b rest => cases rest <;> nofun

/-! ## Percent escapes -/

/-- The digits of an escape are upper case. -/
def hexDigit (n : Nat) : Char := "0123456789ABCDEF".toList.getD n '0'

/-- Reading takes either case. -/
def hexValue (c : Char) : Option Nat :=
  if 48 ≤ c.toNat ∧ c.toNat ≤ 57 then some (c.toNat - 48)
  else if 65 ≤ c.toNat ∧ c.toNat ≤ 70 then some (c.toNat - 55)
  else if 97 ≤ c.toNat ∧ c.toNat ≤ 102 then some (c.toNat - 87)
  else none

/-- A byte as itself, as a plus for a blank in a form, or as an escape. -/
def escapeByte (keep : UInt8 → Bool) (form : Bool) (b : UInt8) : List Char :=
  if keep b then [Char.ofNat b.toNat]
  else if form = true ∧ b = 32 then ['+']
  else ['%', hexDigit (b.toNat / 16), hexDigit (b.toNat % 16)]

/-- Every byte that is not kept as a percent escape. -/
def escape (keep : UInt8 → Bool) (form : Bool) (bytes : List UInt8) : List Char :=
  bytes.flatMap (escapeByte keep form)

/-- The bytes of a text with escapes; nothing when one of them is cut short or has no
    digits. -/
def unescape (form : Bool) : List Char → Option (List UInt8)
  | [] => some []
  | c :: rest =>
      if c = '%' then
        match rest with
        | a :: b :: rest =>
            match hexValue a, hexValue b with
            | some x, some y => (unescape form rest).map (UInt8.ofNat (x * 16 + y) :: ·)
            | _, _ => none
        | _ => none
      else
        (unescape form rest).map
          ((if form = true ∧ c = '+' then [32] else String.utf8EncodeChar c) ++ ·)

/-- What may stand for itself: ASCII other than the two signs an escape needs. -/
def Keepable (keep : UInt8 → Bool) (form : Bool) : Prop :=
  ∀ b, keep b = true → b < 128 ∧ b ≠ 37 ∧ (form = true → b ≠ 43)

theorem hexValue_hexDigit : ∀ n < 16, hexValue (hexDigit n) = some n := by decide

/-- An ASCII byte is its own encoding, and only two of them are signs. -/
theorem ascii_char : ∀ n < 128, String.utf8EncodeChar (Char.ofNat n) = [UInt8.ofNat n]
    ∧ (Char.ofNat n = '%' → n = 37) ∧ (Char.ofNat n = '+' → n = 43) := by decide

/-- A character that begins no escape stands for its bytes; in a query a plus stands for a
    blank. -/
theorem unescape_cons (form : Bool) {c : Char} (h : c ≠ '%') (rest : List Char) :
    unescape form (c :: rest) = (unescape form rest).map
      ((if form = true ∧ c = '+' then [32] else String.utf8EncodeChar c) ++ ·) := by
  match rest with
  | [] => simp [unescape, h]
  | [a] => simp [unescape, h]
  | a :: b :: rest => rw [unescape, if_neg h]

/-- A character that is neither stands for itself. -/
theorem unescape_literal (form : Bool) {c : Char} (hpercent : c ≠ '%')
    (hplus : form = true → c ≠ '+') (rest : List Char) :
    unescape form (c :: rest) = (unescape form rest).map (String.utf8EncodeChar c ++ ·) := by
  rw [unescape_cons form hpercent, if_neg fun h => hplus h.1 h.2]

/-- One escaped byte is read back, whatever follows. -/
theorem unescape_escapeByte {keep : UInt8 → Bool} {form : Bool} (hkeep : Keepable keep form)
    (b : UInt8) (rest : List Char) :
    unescape form (escapeByte keep form b ++ rest) = (unescape form rest).map (b :: ·) := by
  have hlt := b.toNat_lt
  rw [escapeByte]
  split
  · next hb =>
      -- a byte that is kept: an ASCII character without a meaning of its own
      obtain ⟨hascii, hpercent, hplus⟩ := hkeep b hb
      obtain ⟨hencode, hchar, hchar'⟩ := ascii_char b.toNat (UInt8.lt_iff_toNat_lt.mp hascii)
      have hb' : UInt8.ofNat b.toNat = b := UInt8.ofNat_toNat
      rw [List.singleton_append, unescape_literal, hencode, hb']
      · rfl
      · exact fun h => hpercent (hb' ▸ congrArg UInt8.ofNat (hchar h))
      · exact fun hform h => hplus hform (hb' ▸ congrArg UInt8.ofNat (hchar' h))
  · split
    · next hblank =>
        -- a blank in a form is written as a plus
        rw [List.singleton_append, unescape_cons form (by decide), if_pos ⟨hblank.1, rfl⟩, hblank.2]
        rfl
    -- two digits put the byte together again
    · have hbyte : UInt8.ofNat (b.toNat / 16 * 16 + b.toNat % 16) = b := ofNat_eq (by omega)
      show unescape form ('%' :: hexDigit (b.toNat / 16) :: hexDigit (b.toNat % 16) :: rest) = _
      rw [unescape, if_pos rfl, hexValue_hexDigit _ (by omega), hexValue_hexDigit _ (by omega)]
      dsimp only
      rw [hbyte]

/-- **Round trip** of the escapes, with any text behind them. -/
theorem unescape_escape_append {keep : UInt8 → Bool} {form : Bool} (hkeep : Keepable keep form)
    (bytes : List UInt8) (rest : List Char) :
    unescape form (escape keep form bytes ++ rest) = (unescape form rest).map (bytes ++ ·) := by
  induction bytes with
  | nil =>
      show unescape form rest = _
      cases unescape form rest <;> rfl
  | cons b bytes ih =>
      have hcons :
        escape keep form (b :: bytes) = escapeByte keep form b ++ escape keep form bytes := rfl
      rw [hcons, List.append_assoc, unescape_escapeByte hkeep, ih, Option.map_map]
      rfl

/-- **Unescaping what was escaped** gives the bytes back. -/
theorem unescape_escape {keep : UInt8 → Bool} {form : Bool} (hkeep : Keepable keep form)
    (bytes : List UInt8) : unescape form (escape keep form bytes) = some bytes := by
  have h := unescape_escape_append hkeep bytes []
  rw [List.append_nil] at h
  rw [h, unescape, Option.map_some, List.append_nil]

/-- Text without either sign stands for its own bytes. -/
theorem unescape_plain (form : Bool) {text : List Char}
    (h : ∀ c ∈ text, c ≠ '%' ∧ (form = true → c ≠ '+')) (rest : List Char) :
    unescape form (text ++ rest) = (unescape form rest).map (encodeUtf8 text ++ ·) := by
  induction text with
  | nil =>
      show unescape form rest = _
      cases unescape form rest <;> rfl
  | cons c text ih =>
      obtain ⟨⟨hpercent, hplus⟩, htext⟩ := List.forall_mem_cons.mp h
      have hcons : encodeUtf8 (c :: text) = String.utf8EncodeChar c ++ encodeUtf8 text := rfl
      rw [List.cons_append, unescape_literal form hpercent hplus, ih htext, Option.map_map, hcons]
      congr 1
      funext bytes
      exact (List.append_assoc _ _ _).symm

/-- An escaped text has the characters it may keep, and those of an escape. -/
theorem mem_escape {keep : UInt8 → Bool} {form : Bool} {bytes : List UInt8} {c : Char}
    (h : c ∈ escape keep form bytes) :
    (∃ b, keep b = true ∧ c = Char.ofNat b.toNat) ∨ c = '+' ∨ c = '%'
      ∨ c ∈ "0123456789ABCDEF".toList := by
  obtain ⟨b, -, hc⟩ := List.mem_flatMap.mp h
  rw [escapeByte] at hc
  have hdigit : ∀ n < 16, hexDigit n ∈ "0123456789ABCDEF".toList := by decide
  have hlt := b.toNat_lt
  split at hc
  · next hb => exact Or.inl ⟨b, hb, List.mem_singleton.mp hc⟩
  · split at hc
    · exact Or.inr (Or.inl (List.mem_singleton.mp hc))
    · rcases List.mem_cons.mp hc with hc | hc
      · exact Or.inr (Or.inr (Or.inl hc))
      · rcases List.mem_cons.mp hc with hc | hc
        · exact Or.inr (Or.inr (Or.inr (hc ▸ hdigit _ (by omega))))
        · rw [List.mem_singleton] at hc
          exact Or.inr (Or.inr (Or.inr (hc ▸ hdigit _ (by omega))))

end ByteText
