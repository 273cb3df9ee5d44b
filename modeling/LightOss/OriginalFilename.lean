import LightOss.ByteText
import Mathlib.Data.List.TakeWhile

/-! # Original filenames — the name stored beside an object

    An upload names its file in a header, percent-encoded or not; the archive of a
    folder is named after it.  What is stored is the last component of that name, cut
    at 255 bytes: as text it survives unless the cut falls inside a character.

    `path.Base` with one separator written for both is the last component
    (`pathBase_slashed`), and trimming and splitting cut a text between characters only
    (`trimSpace_split`, `lastComponent_split`), so the last component of a text is one
    (`valid_lastComponent`).  What is left is the cut (`storable_iff`). -/

namespace OriginalFilename

open ByteText

/-! ## `strings`, `url` and `path` on bytes -/

/-- A constant of the source as bytes. -/
def ascii (s : String) : List UInt8 := encodeUtf8 s.toList

/-- The white space of `unicode.IsSpace`. -/
def spaces : List Char :=
  [0x09, 0x0A, 0x0B, 0x0C, 0x0D, 0x20, 0x85, 0xA0, 0x1680, 0x2000, 0x2001, 0x2002, 0x2003, 0x2004,
    0x2005, 0x2006, 0x2007, 0x2008, 0x2009, 0x200A, 0x2028, 0x2029, 0x202F, 0x205F, 0x3000].map
      Char.ofNat

/-- The first of the pieces that the bytes begin with goes. -/
def dropPiece (pieces : List (List UInt8)) (bytes : List UInt8) : Option (List UInt8) :=
  pieces.findSome? fun piece =>
    if piece.isPrefixOf bytes then some (bytes.drop piece.length) else none

/-- Pieces go as long as the bytes begin with one, at most `fuel` of them. -/
def dropPieces (pieces : List (List UInt8)) : Nat → List UInt8 → List UInt8
  | 0, bytes => bytes
  | fuel + 1, bytes =>
      match dropPiece pieces bytes with
      | some rest => dropPieces pieces fuel rest
      | none => bytes

/-- `strings.TrimSpace`: whole characters go, a byte that is none stays. -/
def trimSpace (bytes : List UInt8) : List UInt8 :=
  let pieces := spaces.map String.utf8EncodeChar
  let left := dropPieces pieces bytes.length bytes
  (dropPieces (pieces.map List.reverse) left.length left.reverse).reverse

/-- `url.PathUnescape`. -/
def pathUnescape : List UInt8 → Option (List UInt8)
  | [] => some []
  | b :: rest =>
      if b = 37 then
        match rest with
        | x :: y :: rest =>
            match hexValue (Char.ofNat x.toNat), hexValue (Char.ofNat y.toNat) with
            | some high, some low => (pathUnescape rest).map (UInt8.ofNat (high * 16 + low) :: ·)
            | _, _ => none
        | _ => none
      else (pathUnescape rest).map (b :: ·)

/-- The separator of `path.Base`. -/
def slash : UInt8 := 47

/-- The separator that `ReplaceAll` turns into a slash. -/
def backslash : UInt8 := 92

/-- `path.Base`. -/
def pathBase (p : List UInt8) : List UInt8 :=
  if p = [] then ascii "."
  else
    let reversed := p.reverse.dropWhile (· == slash)
    if reversed = [] then [slash] else (reversed.takeWhile (· != slash)).reverse

/-- `strings.ReplaceAll(s, "\\", "/")`. -/
def slashed (s : List UInt8) : List UInt8 := s.map fun b => if b = backslash then slash else b

/-! ## `validation.go`, `folder_archive.go` -/

/-- `sanitizeOriginalFilename`, with the cut at 255 bytes. -/
def sanitizeOriginalFilename (name : List UInt8) : List UInt8 :=
  let decoded := trimSpace name
  let decoded := (pathUnescape decoded).getD decoded
  let candidate := pathBase (slashed decoded)
  if candidate = ascii "." ∨ candidate = ascii "/" ∨ candidate = [] then ascii "upload.bin"
  else if candidate.length > 255 then candidate.take 255
  else candidate

/-- The name of the archive in the header of the download. -/
def folderArchiveFilename (rootName : List UInt8) : List UInt8 :=
  sanitizeOriginalFilename (rootName ++ ascii ".zip")

/-! ## The name in a header -/

/-- The header value as it is meant: decoded, or taken literally where that fails. -/
def decodedName (name : List UInt8) : List UInt8 :=
  (pathUnescape (trimSpace name)).getD (trimSpace name)

/-- Both separators end a component. -/
def separator (b : UInt8) : Bool := b == slash || b == backslash

/-- The last component of a path, without the separators behind it. -/
def lastComponent (p : List UInt8) : List UInt8 :=
  ((p.reverse.dropWhile separator).takeWhile fun b => !separator b).reverse

/-- What the column of the object row takes. -/
structure Storable (name : List UInt8) : Prop where
  nonempty : name ≠ []
  short : name.length ≤ 255
  text : ValidUtf8 name
  plain : ∀ b ∈ name, separator b = false

/-! ## Trimming -/

/-- What is dropped is one of the pieces. -/
theorem dropPiece_split {pieces : List (List UInt8)} {bytes rest : List UInt8}
    (h : dropPiece pieces bytes = some rest) : ∃ piece ∈ pieces, bytes = piece ++ rest := by
  obtain ⟨piece, hpiece, hrest⟩ := List.exists_of_findSome?_eq_some h
  split at hrest
  · next hpfx =>
      obtain ⟨tail, rfl⟩ := List.isPrefixOf_iff_prefix.mp hpfx
      rw [List.drop_left] at hrest
      cases hrest
      exact ⟨piece, hpiece, rfl⟩
  · exact nomatch hrest

/-- Repeated dropping takes pieces off the front. -/
theorem dropPieces_split (pieces : List (List UInt8)) (fuel : Nat) (bytes : List UInt8) :
    ∃ dropped : List (List UInt8), (∀ piece ∈ dropped, piece ∈ pieces)
      ∧ bytes = dropped.flatten ++ dropPieces pieces fuel bytes := by
  induction fuel generalizing bytes with
  | zero => exact ⟨[], nofun, rfl⟩
  | succ fuel ih =>
      rw [dropPieces]
      split
      · next rest hrest =>
          obtain ⟨piece, hpiece, rfl⟩ := dropPiece_split hrest
          obtain ⟨dropped, hdropped, hsplit⟩ := ih rest
          refine ⟨piece :: dropped, List.forall_mem_cons.mpr ⟨hpiece, hdropped⟩, ?_⟩
          rw [List.flatten_cons, List.append_assoc, ← hsplit]
      · exact ⟨[], nofun, rfl⟩

/-- Pieces of text make up a text. -/
theorem flatten_encoded {dropped : List (List UInt8)}
    (h : ∀ piece ∈ dropped, piece ∈ spaces.map String.utf8EncodeChar) :
    ∃ text, encodeUtf8 text = dropped.flatten := by
  induction dropped with
  | nil => exact ⟨[], rfl⟩
  | cons piece rest ih =>
      obtain ⟨hpiece, hrest⟩ := List.forall_mem_cons.mp h
      obtain ⟨c, -, rfl⟩ := List.mem_map.mp hpiece
      obtain ⟨text, htext⟩ := ih hrest
      exact ⟨c :: text, by rw [encodeUtf8_cons, htext, List.flatten_cons]⟩

/-- Text goes at both ends. -/
theorem trimSpace_split (bytes : List UInt8) :
    ∃ front back, bytes = encodeUtf8 front ++ (trimSpace bytes ++ encodeUtf8 back) := by
  obtain ⟨dropped, hdropped, hleft⟩ :=
    dropPieces_split (spaces.map String.utf8EncodeChar) bytes.length bytes
  obtain ⟨front, hfront⟩ := flatten_encoded hdropped
  rw [trimSpace]
  generalize dropPieces (spaces.map String.utf8EncodeChar) bytes.length bytes = left at hleft
  obtain ⟨dropped', hdropped', hright⟩ := dropPieces_split
    ((spaces.map String.utf8EncodeChar).map List.reverse) left.length left.reverse
  obtain ⟨back, hback⟩ : ∃ text, encodeUtf8 text = (dropped'.map List.reverse).reverse.flatten := by
    refine flatten_encoded fun piece hpiece => ?_
    obtain ⟨piece', hpiece', rfl⟩ := List.mem_map.mp (List.mem_reverse.mp hpiece)
    obtain ⟨encoded, hencoded, rfl⟩ := List.mem_map.mp (hdropped' piece' hpiece')
    rw [List.reverse_reverse]
    exact hencoded
  refine ⟨front, back, ?_⟩
  rw [hfront, hback, ← List.reverse_flatten, ← List.reverse_append, ← hright, List.reverse_reverse]
  exact hleft

/-- A text is a text without its white space. -/
theorem valid_trimSpace {bytes : List UInt8} (h : ValidUtf8 bytes) :
    ValidUtf8 (trimSpace bytes) := by
  obtain ⟨front, back, hsplit⟩ := trimSpace_split bytes
  rw [hsplit] at h
  exact (h.of_append.cut (startsChar_encodeUtf8 back)).1

theorem valid_decodedName {name : List UInt8}
    (h : ValidUtf8 ((pathUnescape (trimSpace name)).getD name)) : ValidUtf8 (decodedName name) := by
  rw [decodedName]
  cases hdecoded : pathUnescape (trimSpace name) with
  | none =>
      rw [hdecoded] at h
      exact valid_trimSpace h
  | some decoded =>
      rw [hdecoded] at h
      exact h

/-! ## The last component -/

/-- The last component has no separator in it. -/
theorem separator_free {p : List UInt8} : ∀ b ∈ lastComponent p, separator b = false := by
  intro b hb
  have hkeep := List.mem_takeWhile_imp (List.mem_reverse.mp hb)
  exact Bool.not_eq_true' _ ▸ hkeep

/-- Separators begin a character. -/
theorem startsChar_separator {b : UInt8} (h : separator b = true) : b.IsUTF8FirstByte := by
  rw [separator, Bool.or_eq_true, beq_iff_eq, beq_iff_eq] at h
  rcases h with rfl | rfl <;> decide

/-- A path is cut at separators only. -/
theorem lastComponent_split (p : List UInt8) : ∃ front back, p = front ++ lastComponent p ++ back
    ∧ (∀ b ∈ back, separator b = true) ∧ (∀ b ∈ front.getLast?, separator b = true) := by
  let reversed := p.reverse.dropWhile separator
  refine ⟨(reversed.dropWhile fun b => !separator b).reverse,
    (p.reverse.takeWhile separator).reverse, ?_, fun b hb => ?_, fun b hb => ?_⟩
  · rw [lastComponent, ← List.reverse_append, List.takeWhile_append_dropWhile,
      ← List.reverse_append,
      List.takeWhile_append_dropWhile, List.reverse_reverse]
  · exact List.mem_takeWhile_imp (List.mem_reverse.mp hb)
  · rw [List.getLast?_reverse] at hb
    have hhead := List.head?_dropWhile_not (fun b => !separator b) reversed
    rw [hb] at hhead
    simpa using hhead

/-- **The last component** of a text is one. -/
theorem valid_lastComponent {p : List UInt8} (h : ValidUtf8 p) : ValidUtf8 (lastComponent p) := by
  obtain ⟨front, back, hsplit, hback, hfront⟩ := lastComponent_split p
  rw [hsplit] at h
  have hname := (h.cut fun b hb => startsChar_separator (hback b (List.mem_of_mem_head? hb))).1
  rcases List.eq_nil_or_concat front with rfl | ⟨init, b, rfl⟩
  · exact hname
  · rw [List.concat_eq_append] at hname hfront
    have hb := hfront b List.getLast?_concat
    rw [List.append_assoc, List.singleton_append] at hname
    have hrest := (hname.cut fun d hd => by cases hd; exact startsChar_separator hb).2
    -- the separator itself is a text
    rw [separator, Bool.or_eq_true, beq_iff_eq, beq_iff_eq] at hb
    rcases hb with rfl | rfl
    · exact ValidUtf8.of_append (s := ['/']) hrest
    · exact ValidUtf8.of_append (s := ['\\']) hrest

/-- A name without separators stays as it is. -/
theorem slashed_of_free {p : List UInt8} (h : ∀ b ∈ p, separator b = false) : slashed p = p := by
  refine (List.map_congr_left (g := id) fun b hb => if_neg ?_).trans (List.map_id _)
  rintro rfl
  exact nomatch h backslash hb

/-- A byte is a slash afterwards exactly when it was a separator. -/
theorem slashed_separator (b : UInt8) :
    ((if b = backslash then slash else b) == slash) = separator b := by
  rw [separator]
  split
  · next hb =>
      rw [hb]
      rfl
  · next hb => rw [beq_eq_false_iff_ne.mpr hb, Bool.or_false]

/-- There is no last component exactly when there are only separators. -/
theorem lastComponent_eq_nil {p : List UInt8} :
    lastComponent p = [] ↔ p.reverse.dropWhile separator = [] := by
  rw [lastComponent, List.reverse_eq_nil_iff]
  constructor
  · intro h
    cases hleft : p.reverse.dropWhile separator with
    | nil => rfl
    | cons b rest =>
        have hhead := List.head?_dropWhile_not separator p.reverse
        rw [hleft] at hhead h
        rw [List.takeWhile_cons_of_pos (by simpa using hhead)] at h
        exact nomatch h
  · intro h
    rw [h]
    rfl

/-- With one separator written for both, `path.Base` is the last component. -/
theorem pathBase_slashed (p : List UInt8) : pathBase (slashed p)
    = if p = [] then ascii "." else if lastComponent p = [] then [slash] else lastComponent p := by
  have hdrop : (slashed p).reverse.dropWhile (· == slash)
      = slashed (p.reverse.dropWhile separator) := by
    rw [slashed, ← List.map_reverse, List.dropWhile_map, slashed]
    exact congrArg (fun q => (p.reverse.dropWhile q).map _) (funext slashed_separator)
  have htake : (slashed (p.reverse.dropWhile separator)).takeWhile (· != slash)
      = (lastComponent p).reverse := by
    rw [lastComponent, List.reverse_reverse, slashed, List.takeWhile_map]
    have hnot : ((· != slash) ∘ fun b : UInt8 => if b = backslash then slash else b)
        = fun b => !separator b := funext fun b => congrArg not (slashed_separator b)
    rw [hnot]
    exact slashed_of_free fun b hb => by simpa using List.mem_takeWhile_imp hb
  rw [pathBase, hdrop]
  dsimp only
  rw [htake, List.reverse_reverse]
  have hempty : slashed p = [] ↔ p = [] := List.map_eq_nil_iff
  have hempty' : slashed (p.reverse.dropWhile separator) = [] ↔ lastComponent p = [] :=
    List.map_eq_nil_iff.trans lastComponent_eq_nil.symm
  simp only [hempty, hempty']

/-- What is stored: the last component, as far as it goes. -/
theorem sanitizeOriginalFilename_eq (name : List UInt8) : sanitizeOriginalFilename name
    = if lastComponent (decodedName name) = [] ∨ lastComponent (decodedName name) = ascii "."
      then ascii "upload.bin" else (lastComponent (decodedName name)).take 255 := by
  have hslash : lastComponent (decodedName name) ≠ [slash] := by
    intro h
    have hmem : slash ∈ lastComponent (decodedName name) := by
      rw [h]
      exact List.mem_cons_self
    exact nomatch separator_free slash hmem
  have hroot : ascii "/" = [slash] := by decide
  rw [sanitizeOriginalFilename, ← decodedName, pathBase_slashed, hroot]
  by_cases hempty : decodedName name = []
  · have hnil : lastComponent (decodedName name) = [] := by
      rw [hempty]
      rfl
    rw [if_pos hempty, if_pos (Or.inl rfl), if_pos (Or.inl hnil)]
  · rw [if_neg hempty]
    by_cases hnil : lastComponent (decodedName name) = []
    · rw [if_pos hnil, if_pos (Or.inr (Or.inl rfl)), if_pos (Or.inl hnil)]
    · rw [if_neg hnil]
      by_cases hname : lastComponent (decodedName name) = ascii "."
      · rw [if_pos (Or.inl hname), if_pos (Or.inr hname)]
      · rw [if_neg (not_or.mpr ⟨hname, not_or.mpr ⟨hslash, hnil⟩⟩),
          if_neg (not_or.mpr ⟨hnil, hname⟩)]
        split
        · rfl
        · next hshort => exact (List.take_of_length_le (Nat.le_of_not_gt hshort)).symm

/-! ## What is stored -/

/-- The name that stands in for a missing one can be stored. -/
theorem storable_upload : Storable (ascii "upload.bin") where
  nonempty := by decide
  short := by decide
  text := ⟨_, rfl⟩
  plain b hb := by
    have hfree : (ascii "upload.bin").all (fun b => !separator b) = true := by decide
    simpa using List.all_eq_true.mp hfree b hb

/-- The cut at 255 bytes keeps all but, perhaps, the text. -/
theorem storable_take {name : List UInt8} (hne : name ≠ []) (htext : ValidUtf8 name)
    (hplain : ∀ b ∈ name, separator b = false) :
    Storable (name.take 255) ↔ StartsChar (name.drop 255) := by
  have hwhole : ValidUtf8 (name.take 255 ++ name.drop 255) := by
    rw [List.take_append_drop]
    exact htext
  constructor
  · exact fun h => hwhole.left_iff.mp h.text
  · intro hstart
    refine ⟨fun hnil => ?_, List.length_take_le _ _, hwhole.left_iff.mpr hstart,
      fun b hb => hplain b (List.mem_of_mem_take hb)⟩
    rcases List.take_eq_nil_iff.mp hnil with h | h
    · exact nomatch h
    · exact hne h

/-- **One name**: stored as text when the cut does not fall inside a character. -/
theorem storable_iff {name : List UInt8}
    (h : ValidUtf8 ((pathUnescape (trimSpace name)).getD name)) :
    Storable (sanitizeOriginalFilename name)
      ↔ StartsChar ((lastComponent (decodedName name)).drop 255) := by
  rw [sanitizeOriginalFilename_eq]
  split
  · next hnone =>
      refine iff_of_true storable_upload ?_
      rcases hnone with hnone | hnone
      · rw [hnone]
        decide
      · rw [hnone]
        decide
  · next hsome =>
      exact storable_take (not_or.mp hsome).1 (valid_lastComponent (valid_decodedName h))
        separator_free

/-- **Uploads and archives** take a name that can be stored exactly when it is at most 255
    bytes long or its 256th byte begins a character. -/
theorem original_filename_storable (name rootName : List UInt8) :
    (ValidUtf8 ((pathUnescape (trimSpace name)).getD name) →
      (Storable (sanitizeOriginalFilename name)
        ↔ StartsChar ((lastComponent (decodedName name)).drop 255)))
    ∧ (ValidUtf8
      ((pathUnescape (trimSpace (rootName ++ ascii ".zip"))).getD (rootName ++ ascii ".zip")) →
      (Storable (folderArchiveFilename rootName)
        ↔ StartsChar ((lastComponent (decodedName (rootName ++ ascii ".zip"))).drop 255))) :=
  ⟨storable_iff, storable_iff⟩

/-- A header with a path and an escaped é, and the archive of a folder. -/
theorem original_filename_storable_cafe :
    Storable (sanitizeOriginalFilename (ascii "menus/caf%C3%A9.txt"))
      ∧ Storable (folderArchiveFilename (ascii "menus")) := by
  have hdecoded : pathUnescape (trimSpace (ascii "menus/caf%C3%A9.txt"))
      = some (encodeUtf8 "menus/café.txt".toList) := by decide +kernel
  have hvalid : ValidUtf8 ((pathUnescape (trimSpace (ascii "menus/caf%C3%A9.txt"))).getD
      (ascii "menus/caf%C3%A9.txt")) := by
    rw [hdecoded]
    exact ⟨_, rfl⟩
  have harchive : pathUnescape (trimSpace (ascii "menus" ++ ascii ".zip"))
      = some (encodeUtf8 "menus.zip".toList) := by decide +kernel
  have hvalidArchive : ValidUtf8 ((pathUnescape (trimSpace (ascii "menus" ++ ascii ".zip"))).getD
      (ascii "menus" ++ ascii ".zip")) := by
    rw [harchive]
    exact ⟨_, rfl⟩
  obtain ⟨hheader, hzip⟩ := original_filename_storable (ascii "menus/caf%C3%A9.txt") (ascii "menus")
  exact ⟨(hheader hvalid).mpr (by decide +kernel), (hzip hvalidArchive).mpr (by decide +kernel)⟩

/-- 254 letters and an escaped é: the cut falls inside it. -/
def longName : List UInt8 := List.replicate 254 97 ++ ascii "%C3%A9"

/-- A valid name whose stored form is not: the cut goes through a character. -/
theorem original_filename_cut : ValidUtf8 ((pathUnescape (trimSpace longName)).getD longName)
    ∧ ¬ ValidUtf8 (sanitizeOriginalFilename longName) := by
  have hdecoded : pathUnescape (trimSpace longName)
      = some (encodeUtf8 (List.replicate 254 'a' ++ ['é'])) := by decide +kernel
  have hvalid : ValidUtf8 ((pathUnescape (trimSpace longName)).getD longName) := by
    rw [hdecoded]
    exact ⟨_, rfl⟩
  have hcut : encodeUtf8 (List.replicate 254 'a' ++ ['é'])
      = sanitizeOriginalFilename longName ++ [0xA9] := by decide +kernel
  refine ⟨hvalid, fun htext => ?_⟩
  have hwhole : ValidUtf8 (sanitizeOriginalFilename longName ++ [0xA9]) := ⟨_, hcut⟩
  exact absurd (hwhole.left_iff.mp htext) (by decide)

end OriginalFilename
