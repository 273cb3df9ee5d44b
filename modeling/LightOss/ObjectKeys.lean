import LightOss.Trimming
import LightOss.Validation
import Mathlib.Data.List.Infix
import Mathlib.Data.List.TakeWhile

/-! # Object keys — which joined keys a whole-key check accepts

    Every write path joins a key from a folder prefix and a name; the read paths
    check the whole key.  `ValidateObjectKey` in flat form (`validateObjectKey_iff`),
    and when it accepts a prefix joined with a name it accepts by itself
    (`accepted_join`).

    Two facts carry the joining: the segments of a joined key are those of its sides
    (`segments_join`), and no occurrence of a text without slashes straddles the slash
    between them (`infix_join`), so a pair of dots lies on one side (`dots_join`). -/

namespace ObjectKeys

open Trimming Fallible Validation

/-! ## `strings.Contains` -/

/-- `strings.Contains` as an infix of the characters. -/
theorem contains_iff {s sub : String} : contains s sub = true ↔ sub.toList <:+: s.toList := by
  rw [contains, List.any_eq_true]
  constructor
  · rintro ⟨t, ht, hsub⟩
    exact (List.isPrefixOf_iff_prefix.mp hsub).isInfix.trans ((List.mem_tails _ _).mp ht).isInfix
  · rintro ⟨front, back, hs⟩
    refine ⟨sub.toList ++ back, (List.mem_tails _ _).mpr ⟨front, ?_⟩, ?_⟩
    · rw [← hs, List.append_assoc]
    · exact List.isPrefixOf_iff_prefix.mpr (List.prefix_append _ _)

/-- A text of one character is contained when the character occurs. -/
theorem contains_char {s sub : String} {c : Char} (h : sub.toList = [c]) :
    contains s sub = true ↔ c ∈ s.toList := by
  rw [contains_iff, h]
  exact List.singleton_infix_iff c s.toList

/-- No occurrence straddles a character the pattern does not have. -/
theorem infix_join {α : Type} {sub : List α} {c : α} (hc : c ∉ sub) (front back : List α) :
    sub <:+: front ++ c :: back ↔ sub <:+: front ∨ sub <:+: back := by
  constructor
  · intro h
    -- a part of the pattern that reaches the separator would begin with it
    have hstart : ∀ part, part ⊆ sub → part <+: c :: back → part = [] := by
      intro part hpart hpfx
      cases part with
      | nil => rfl
      | cons d rest =>
          rw [List.cons_prefix_cons] at hpfx
          exact absurd (hpfx.1 ▸ hpart List.mem_cons_self) hc
    -- in the front, behind it, or on both sides of its end
    rcases List.infix_append_iff_ne_nil.mp h with h | h | ⟨left, right, -, hright, hsub, -, hpfx⟩
    · exact Or.inl h
    · rcases List.infix_cons_iff.mp h with h | h
      · rw [hstart sub (fun _ hx => hx) h]
        exact Or.inl (List.nil_infix)
      · exact Or.inr h
    · exact absurd (hstart right (hsub ▸ List.subset_append_right _ _) hpfx) hright
  · rintro (h | h)
    · exact h.trans (List.prefix_append _ _).isInfix
    · exact h.trans ((List.suffix_cons _ _).trans (List.suffix_append _ _)).isInfix

/-! ## Segments -/

/-- No segment is empty, `.` or `..`. -/
abbrev GoodSegments (s : String) : Prop := (segments s).all (fun part => !badSegment part) = true

/-- Joining with a slash joins the segments. -/
theorem segments_join (dir name : String) :
    segments (dir ++ "/" ++ name) = segments dir ++ segments name := by
  have hchars : (dir ++ "/" ++ name).toList = dir.toList ++ '/' :: name.toList := by
    rw [String.toList_append, String.toList_append, List.append_assoc]
    rfl
  rw [segments, hchars, List.splitOn_append_cons_self, List.map_append]
  rfl

/-- A text without a slash is its own segment. -/
theorem segments_of_free {s : String} (h : '/' ∉ s.toList) : segments s = [s] := by
  rw [segments, List.splitOn_eq_singleton h, List.map_singleton, String.ofList_toList]

/-- A joined key is good when both sides are. -/
theorem goodSegments_join {dir name : String} :
    GoodSegments (dir ++ "/" ++ name) ↔ GoodSegments dir ∧ GoodSegments name := by
  rw [GoodSegments, segments_join, List.all_append, Bool.and_eq_true]

/-- Joining the segments undoes the splitting. -/
theorem joinSegments_segments (s : String) : joinSegments (segments s) = s := by
  rw [joinSegments, segments, List.map_map]
  have hid : (String.toList ∘ String.ofList) = id := funext fun _ => String.toList_ofList
  rw [hid, List.map_id, List.intercalate_splitOn, String.ofList_toList]

/-- A scan that keeps every good segment keeps a path of good segments. -/
theorem foldl_good {f : List String → String → List String}
    (hf : ∀ kept part, part ≠ "" → part ≠ "." → part ≠ ".." → f kept part = kept ++ [part])
    (kept : List String) : ∀ (parts : List String),
      parts.all (fun part => !badSegment part) = true → parts.foldl f kept = kept ++ parts := by
  intro parts
  induction parts generalizing kept with
  | nil => exact fun _ => (List.append_nil kept).symm
  | cons part rest ih =>
      intro h
      rw [List.all_cons, Bool.and_eq_true] at h
      have hgood : part ≠ "" ∧ part ≠ "." ∧ part ≠ ".." := by
        simpa [badSegment, and_assoc] using h.1
      rw [List.foldl_cons, hf kept part hgood.1 hgood.2.1 hgood.2.2, ih _ h.2, List.append_assoc]
      rfl

/-- Cleaning does nothing to a path of good segments. -/
theorem cleanRooted_good {key : String} (h : GoodSegments key) : cleanRooted key = "/" ++ key := by
  have helems : cleanElements (segments key) = segments key := by
    refine (foldl_good (fun kept part hempty hdot hdots => ?_) [] _ h).trans (List.nil_append _)
    rw [if_neg (not_or.mpr ⟨hempty, hdot⟩), if_neg hdots]
  rw [cleanRooted, helems, joinSegments_segments]

theorem ne_empty_of_good {key : String} (h : GoodSegments key) : key ≠ "" := by
  rintro rfl
  exact absurd h (by decide)

/-! ## `ValidateObjectKey` in flat form -/

/-- What `ValidateObjectKey` asks of a key. -/
structure Accepted (key : String) : Prop where
  segs : GoodSegments key
  dots : contains key ".." = false
  size : key.utf8ByteSize ≤ 512
  visible : ∃ c ∈ key.toList, isSpace c = false
  nul : '\x00' ∉ key.toList
  backslash : '\\' ∉ key.toList

/-- Trimming takes white space only. -/
theorem mem_trimSpace {s : String} {c : Char} (hc : c ∈ s.toList) (hspace : isSpace c = false) :
    c ∈ (trimSpace s).toList := by
  rw [trimSpace, String.toList_ofList]
  exact mem_trim hc hspace hspace

/-- Something is left exactly when a character is no white space. -/
theorem trimSpace_ne_empty {s : String} :
    trimSpace s ≠ "" ↔ ∃ c ∈ s.toList, isSpace c = false := by
  constructor
  · intro hne
    by_contra hall
    refine hne ?_
    rw [trimSpace, List.dropWhile_eq_nil_iff.mpr]
    · rfl
    · intro c hc
      by_contra hspace
      have hc := (List.dropWhile_sublist _).mem (List.mem_reverse.mp hc)
      exact hall ⟨c, hc, Bool.not_eq_true _ ▸ hspace⟩
  · rintro ⟨c, hc, hspace⟩ hempty
    have hmem := mem_trimSpace hc hspace
    rw [hempty] at hmem
    exact nomatch hmem

/-- A slash in front makes no pair of dots. -/
theorem dots_rooted {key : String} : contains ("/" ++ key) ".." = contains key ".." := by
  rw [Bool.eq_iff_iff, contains_iff, contains_iff, String.toList_append]
  have hfree : '/' ∉ "..".toList := by decide
  have hjoin := infix_join hfree [] key.toList
  constructor
  · intro h
    rcases hjoin.mp h with h | h
    · exact absurd (List.infix_nil.mp h) (by decide)
    · exact h
  · exact fun h => hjoin.mpr (Or.inr h)

/-- **`ValidateObjectKey` in flat form.** -/
theorem validateObjectKey_iff {key : String} : validateObjectKey key = .ok () ↔ Accepted key := by
  have hnul : contains key "\x00" = true ↔ '\x00' ∈ key.toList := contains_char (by decide)
  have hback : contains key "\\" = true ↔ '\\' ∈ key.toList := contains_char (by decide)
  rw [validateObjectKey]
  constructor
  · intro h
    obtain ⟨_, hvisible, h⟩ := bind_eq_ok.mp h
    obtain ⟨_, hchars, h⟩ := bind_eq_ok.mp h
    obtain ⟨_, hclean, hsegs⟩ := bind_eq_ok.mp h
    -- a path of good segments is clean, so the comparison with the cleaned key says nothing
    -- new
    have hvisible := not_or.mp (ensure_eq_ok.mp hvisible)
    have hchars := not_or.mp (ensure_eq_ok.mp hchars)
    have hclean := not_or.mp (ensure_eq_ok.mp hclean)
    have hsegs : GoodSegments key := ensure_eq_ok.mp hsegs
    rw [cleanRooted_good hsegs, dots_rooted] at hclean
    exact ⟨hsegs, Bool.not_eq_true _ ▸ hclean.2, Nat.le_of_not_lt hvisible.2,
      trimSpace_ne_empty.mp hvisible.1, fun hc => hchars.1 (hnul.mpr hc),
      fun hc => hchars.2 (hback.mpr hc)⟩
  · intro h
    refine bind_eq_ok.mpr ⟨(), ensure_eq_ok.mpr ?_, ?_⟩
    · exact not_or.mpr ⟨trimSpace_ne_empty.mpr h.visible, Nat.not_lt.mpr h.size⟩
    refine bind_eq_ok.mpr ⟨(), ensure_eq_ok.mpr ?_, ?_⟩
    · exact not_or.mpr ⟨fun hc => h.nul (hnul.mp hc), fun hc => h.backslash (hback.mp hc)⟩
    refine bind_eq_ok.mpr ⟨(), ensure_eq_ok.mpr ?_, ensure_eq_ok.mpr h.segs⟩
    rw [cleanRooted_good h.segs, dots_rooted, h.dots]
    refine not_or.mpr ⟨fun hroot => ne_empty_of_good h.segs ?_, Bool.false_ne_true⟩
    exact String.append_eq_left_iff.mp hroot

/-! ## Folders and the names joined to them -/

/-- A prefix that names can be joined to: the root, or good segments and a slash. -/
structure Folder (pfx : String) : Prop where
  shape : pfx = "" ∨ ∃ dir, pfx = dir ++ "/" ∧ GoodSegments dir
  nul : '\x00' ∉ pfx.toList
  backslash : '\\' ∉ pfx.toList

/-- A folder prefix the services accept is a folder, but for the bare slash. -/
theorem folder_of_validateFolderPrefix {pfx : String} (h : validateFolderPrefix pfx = .ok ())
    (hne : pfx ≠ "/") : Folder pfx := by
  rw [validateFolderPrefix, validatePrefix] at h
  obtain ⟨_, hchars, h⟩ := bind_eq_ok.mp h
  have hchars := ensure_eq_ok.mp hchars
  refine ⟨?_, fun hc => hchars (Or.inr (Or.inl hc)), fun hc => hchars (Or.inr (Or.inr hc))⟩
  split at h
  · next hempty => exact Or.inl hempty
  · obtain ⟨_, hsfx, h⟩ := bind_eq_ok.mp h
    obtain ⟨dir, hdir⟩ := hasSuffix_iff.mp (ensure_eq_ok.mp hsfx)
    have hpfx : pfx = String.ofList dir ++ "/" := by
      rw [← String.toList_inj, String.toList_append, String.toList_ofList]
      exact hdir.symm
    have htrim : trimSuffix pfx "/" = String.ofList dir := by
      rw [trimSuffix, if_pos (ensure_eq_ok.mp hsfx), ← hdir, List.length_append,
        Nat.add_sub_cancel, List.take_left]
    rw [htrim] at h
    rcases ensure_eq_ok.mp h with hroot | hsegs
    · rw [hroot] at hpfx
      exact absurd hpfx hne
    · exact Or.inr ⟨String.ofList dir, hpfx, hsegs⟩

/-- Behind a folder, a pair of dots lies on one of the two sides: the slash between them
    keeps two single dots apart. -/
theorem dots_join {pfx name : String} (hfolder : Folder pfx) :
    contains (pfx ++ name) ".." = true ↔ contains pfx ".." = true ∨ contains name ".." = true := by
  have hfree : '/' ∉ "..".toList := by decide
  rcases hfolder.shape with rfl | ⟨dir, rfl, -⟩
  · rw [String.empty_append]
    exact ⟨Or.inr, fun h => h.resolve_left (by decide)⟩
  · have hjoin := infix_join hfree dir.toList name.toList
    have hdir : contains (dir ++ "/") ".." = true ↔ "..".toList <:+: dir.toList := by
      rw [contains_iff, String.toList_append]
      refine (infix_join hfree _ []).trans ⟨fun h => h.resolve_right ?_, Or.inl⟩
      exact fun hnil => absurd (List.infix_nil.mp hnil) (by decide)
    rw [hdir, contains_iff, contains_iff, String.toList_append, String.toList_append,
      List.append_assoc]
    exact hjoin

/-- **Joining**: what the whole-key check still has to see is the bytes, and `..`
    inside the prefix. -/
theorem accepted_join {pfx name : String} (hfolder : Folder pfx) (hname : Accepted name) :
    Accepted (pfx ++ name)
      ↔ contains pfx ".." = false ∧ (pfx ++ name).utf8ByteSize ≤ 512 := by
  constructor
  · intro h
    refine ⟨Bool.eq_false_iff.mpr fun hdots => ?_, h.size⟩
    exact Bool.false_ne_true (h.dots.symm.trans ((dots_join hfolder).mpr (Or.inl hdots)))
  · rintro ⟨hdots, hsize⟩
    refine ⟨?_, Bool.eq_false_iff.mpr fun h => ?_, hsize, ?_, ?_, ?_⟩
    -- segments, dots, visible characters, and the two that are forbidden
    · rcases hfolder.shape with rfl | ⟨dir, rfl, hdir⟩
      · rw [String.empty_append]
        exact hname.segs
      · exact goodSegments_join.mpr ⟨hdir, hname.segs⟩
    · rcases (dots_join hfolder).mp h with h | h
      · exact Bool.false_ne_true (hdots.symm.trans h)
      · exact Bool.false_ne_true (hname.dots.symm.trans h)
    · obtain ⟨c, hc, hspace⟩ := hname.visible
      exact ⟨c, String.toList_append ▸ List.mem_append_right _ hc, hspace⟩
    · rw [String.toList_append, List.mem_append]
      exact not_or.mpr ⟨hfolder.nul, hname.nul⟩
    · rw [String.toList_append, List.mem_append]
      exact not_or.mpr ⟨hfolder.backslash, hname.backslash⟩

/-- A path of good segments does not end with a slash. -/
theorem getLast_of_good {name : String} (h : GoodSegments name) :
    ∃ front c, name.toList = front ++ [c] ∧ c ≠ '/' := by
  rcases List.eq_nil_or_concat name.toList with hnil | ⟨front, c, hname⟩
  · exact absurd (String.toList_inj.mp hnil) (ne_empty_of_good h)
  · rw [List.concat_eq_append] at hname
    refine ⟨front, c, hname, ?_⟩
    rintro rfl
    have hjoin : name = String.ofList front ++ "/" ++ "" := by
      rw [← String.toList_inj, String.append_empty, String.toList_append, String.toList_ofList]
      exact hname
    rw [hjoin] at h
    exact absurd (goodSegments_join.mp h).2 (by decide)

/-- The base of a path that does not end with a slash: its last segment. -/
theorem pathBase_of_last {s : String} {front : List Char} {c : Char}
    (h : s.toList = front ++ [c]) (hc : c ≠ '/') :
    pathBase s = String.ofList (s.toList.reverse.takeWhile (· != '/')).reverse := by
  have hne : s ≠ "" := by
    rintro rfl
    simp at h
  have hdrop : s.toList.reverse.dropWhile (· == '/') = s.toList.reverse := by
    rw [h, List.reverse_append, List.reverse_singleton, List.singleton_append,
      List.dropWhile_cons_of_neg (by simpa using hc)]
  rw [pathBase, if_neg hne, hdrop, if_neg]
  rw [h]
  simp

/-- The base of a path below a directory is the base of the rest. -/
theorem pathBase_below (dir : String) {name : String} (h : GoodSegments name) :
    pathBase (dir ++ "/" ++ name) = pathBase name := by
  obtain ⟨front, c, hname, hc⟩ := getLast_of_good h
  have hkey : (dir ++ "/" ++ name).toList = dir.toList ++ '/' :: name.toList := by
    rw [String.toList_append, String.toList_append, List.append_assoc]
    rfl
  have hlast : (dir ++ "/" ++ name).toList = (dir.toList ++ '/' :: front) ++ [c] := by
    rw [hkey, hname, List.append_assoc, List.cons_append]
  rw [pathBase_of_last hlast hc, pathBase_of_last hname hc, hkey, List.reverse_append,
    List.reverse_cons, List.append_assoc, List.singleton_append, List.takeWhile_append]
  -- the slash stops the scan where the name ends
  split
  · next hall =>
      rw [List.takeWhile_cons_of_neg (by decide), List.append_nil]
      congr 2
      exact ((List.takeWhile_prefix _).eq_of_length hall).symm
  · rfl

/-- The base of a joined key is the base of the name. -/
theorem pathBase_join {pfx name : String} (hfolder : Folder pfx) (h : GoodSegments name) :
    pathBase (pfx ++ name) = pathBase name := by
  rcases hfolder.shape with rfl | ⟨dir, rfl, -⟩
  · rw [String.empty_append]
  · exact pathBase_below dir h

/-- A path of good segments is its base, or a directory with its base. -/
theorem base_of_good {s : String} (h : GoodSegments s) :
    '/' ∉ (pathBase s).toList ∧ GoodSegments (pathBase s)
      ∧ (s = pathBase s ∨ ∃ dir, GoodSegments dir ∧ s = dir ++ "/" ++ pathBase s) := by
  obtain ⟨front, c, hs, hc⟩ := getLast_of_good h
  by_cases hslash : '/' ∈ s.toList
  · obtain ⟨back, dir, hrev, hfree⟩ := List.eq_append_cons_of_mem (List.mem_reverse.mpr hslash)
    have hchars : s.toList = dir.reverse ++ '/' :: back.reverse := by
      rw [← List.reverse_reverse s.toList, hrev, List.reverse_append, List.reverse_cons,
        List.append_assoc]
      rfl
    -- something stands behind the last slash, since the path does not end in one
    have hname : back.reverse ≠ [] := by
      intro hnil
      rw [hnil, hs] at hchars
      exact hc (List.cons.inj (List.append_inj_right' hchars rfl)).1
    have hjoin : s = String.ofList dir.reverse ++ "/" ++ String.ofList back.reverse := by
      rw [← String.toList_inj, hchars]
      simp only [String.toList_append, String.toList_ofList, List.append_assoc]
      rfl
    have hbase : pathBase s = String.ofList back.reverse := by
      rw [← pathBase_append hname (fun hmem => hfree (List.mem_reverse.mp hmem)), ← hchars,
        String.ofList_toList]
    have hgood := h
    rw [hjoin] at hgood
    obtain ⟨hdir, hback⟩ := goodSegments_join.mp hgood
    rw [hbase, String.toList_ofList]
    exact ⟨fun hmem => hfree (List.mem_reverse.mp hmem), hback, Or.inr ⟨_, hdir, hjoin⟩⟩
  · have hbase : pathBase s = s := by
      -- without a slash the path is its own base
      have hall : s.toList.reverse.takeWhile (· != '/') = s.toList.reverse := by
        refine List.takeWhile_eq_self_iff.mpr fun d hd => ?_
        rw [bne_iff_ne]
        rintro rfl
        exact hslash (List.mem_reverse.mp hd)
      rw [pathBase_of_last hs hc, hall, List.reverse_reverse, String.ofList_toList]
    rw [hbase]
    exact ⟨hslash, h, Or.inl rfl⟩

/-- A prefix that is there is taken off. -/
theorem trimPrefix_append (pfx s : String) : trimPrefix (pfx ++ s) pfx = s := by
  have hpfx : hasPrefix (pfx ++ s) pfx = true := by
    rw [hasPrefix, String.toList_append]
    exact List.isPrefixOf_iff_prefix.mpr (List.prefix_append _ _)
  rw [trimPrefix, if_pos hpfx, String.toList_append, List.drop_left, String.ofList_toList]

theorem trimSuffix_append (s sfx : String) : trimSuffix (s ++ sfx) sfx = s := by
  have hsfx : hasSuffix (s ++ sfx) sfx = true := by
    rw [hasSuffix_iff, String.toList_append]
    exact List.suffix_append _ _
  rw [trimSuffix, if_pos hsfx, String.toList_append, List.length_append, Nat.add_sub_cancel,
    List.take_left, String.ofList_toList]

/-! ## The marker of a new folder -/

/-- What `ValidateFolderName` says of the untrimmed name. -/
theorem folderName_ok {name : String} (h : validateFolderName name = .ok ()) :
    '\x00' ∉ name.toList ∧ '\\' ∉ name.toList ∧ '/' ∉ name.toList ∧ badSegment name = false := by
  rw [validateFolderName] at h
  obtain ⟨_, hempty, h⟩ := bind_eq_ok.mp h
  obtain ⟨_, hchars, h⟩ := bind_eq_ok.mp h
  have hempty := ensure_eq_ok.mp hempty
  have hchars := ensure_eq_ok.mp hchars
  have hname := ensure_eq_ok.mp h
  -- trimming takes white space only, so a character that is none is still there
  have hfree : ∀ (c : Char) (sub : String), sub.toList = [c] → isSpace c = false →
      contains (trimSpace name) sub ≠ true → c ∉ name.toList := by
    intro c sub hsub hspace hnot hc
    exact hnot ((contains_char hsub).mpr (mem_trimSpace hc hspace))
  refine ⟨hfree _ "\x00" (by decide) (by decide) fun hc => hchars (Or.inl hc),
    hfree _ "\\" (by decide) (by decide) fun hc => hchars (Or.inr (Or.inl hc)),
    hfree _ "/" (by decide) (by decide) fun hc => hchars (Or.inr (Or.inr hc)), ?_⟩
  rw [badSegment, Bool.or_eq_false_iff, Bool.or_eq_false_iff, beq_eq_false_iff_ne,
    beq_eq_false_iff_ne, beq_eq_false_iff_ne]
  refine ⟨⟨?_, ?_⟩, ?_⟩
  · rintro rfl
    exact hempty (Or.inl (by decide))
  · rintro rfl
    exact hname (Or.inl (by decide))
  · rintro rfl
    exact hname (Or.inr (Or.inl (by decide)))

/-- A folder with one more name is a folder. -/
theorem Folder.child {pfx name : String} (h : Folder pfx)
    (hname : validateFolderName name = .ok ()) :
    Folder (pfx ++ name ++ "/") := by
  obtain ⟨hnul, hback, hslash, hbad⟩ := folderName_ok hname
  have hgood : GoodSegments name := by
    rw [GoodSegments, segments_of_free hslash, List.all_cons, hbad]
    rfl
  refine ⟨Or.inr ⟨pfx ++ name, rfl, ?_⟩, ?_, ?_⟩
  · rcases h.shape with rfl | ⟨dir, rfl, hdir⟩
    · rw [String.empty_append]
      exact hgood
    · exact goodSegments_join.mpr ⟨hdir, hgood⟩
  · rw [String.toList_append, String.toList_append, List.mem_append, List.mem_append]
    exact not_or.mpr ⟨not_or.mpr ⟨h.nul, hnul⟩, by decide⟩
  · rw [String.toList_append, String.toList_append, List.mem_append, List.mem_append]
    exact not_or.mpr ⟨not_or.mpr ⟨h.backslash, hback⟩, by decide⟩

theorem dots_child {pfx name : String} (h : Folder pfx) :
    contains (pfx ++ name ++ "/") ".." = true
      ↔ contains pfx ".." = true ∨ contains name ".." = true := by
  have hfree : '/' ∉ "..".toList := by decide
  rw [← dots_join h, contains_iff, contains_iff, String.toList_append]
  refine (infix_join hfree _ []).trans ⟨fun hor => hor.resolve_right ?_, Or.inl⟩
  exact fun hnil => absurd (List.infix_nil.mp hnil) (by decide)

/-! ## Folders of the keys that are there -/

/-- What stands before a slash of an accepted key is a folder. -/
theorem folder_of_accepted {folder rest : String} (h : Accepted (folder ++ rest))
    (hfolder : folder = "" ∨ hasSuffix folder "/" = true) :
    Folder folder ∧ contains folder ".." = false := by
  refine ⟨⟨?_, fun hc => h.nul ?_, fun hc => h.backslash ?_⟩, ?_⟩
  · rcases hfolder with hroot | hsfx
    · exact Or.inl hroot
    · obtain ⟨dir, hdir⟩ := hasSuffix_iff.mp hsfx
      have hjoin : folder = String.ofList dir ++ "/" := by
        rw [← String.toList_inj, String.toList_append, String.toList_ofList]
        exact hdir.symm
      have hsegs := h.segs
      rw [hjoin] at hsegs
      exact Or.inr ⟨String.ofList dir, hjoin, (goodSegments_join.mp hsegs).1⟩
  · rw [String.toList_append]
    exact List.mem_append_left _ hc
  · rw [String.toList_append]
    exact List.mem_append_left _ hc
  · refine Bool.eq_false_iff.mpr fun hdots => Bool.false_ne_true (h.dots.symm.trans ?_)
    rw [contains_iff, String.toList_append]
    exact (contains_iff.mp hdots).trans (List.prefix_append _ _).isInfix

/-- A folder within the byte limit passes `ValidateFolderPrefix`. -/
theorem validateFolderPrefix_of_folder {pfx : String} (h : Folder pfx)
    (hsize : pfx.utf8ByteSize ≤ 512) : validateFolderPrefix pfx = .ok () := by
  rw [validateFolderPrefix, validatePrefix]
  refine bind_eq_ok.mpr ⟨(), ensure_eq_ok.mpr ?_, ?_⟩
  · rintro (hbig | hnul | hback)
    · exact absurd hbig (Nat.not_lt.mpr hsize)
    · exact h.nul hnul
    · exact h.backslash hback
  rcases h.shape with rfl | ⟨dir, rfl, hdir⟩
  · exact if_pos rfl
  · have hsfx : hasSuffix (dir ++ "/") "/" = true := by
      rw [hasSuffix_iff, String.toList_append]
      exact List.suffix_append _ _
    -- the check looks at what stands before the trailing slash
    have htrim : trimSuffix (dir ++ "/") "/" = dir := by
      rw [trimSuffix, if_pos hsfx, String.toList_append, List.length_append, Nat.add_sub_cancel,
        List.take_left, String.ofList_toList]
    have hne : dir ++ "/" ≠ "" := by
      intro hempty
      have hnil := congrArg String.toList hempty
      rw [String.toList_append] at hnil
      exact List.append_ne_nil_of_right_ne_nil _ (by decide) hnil
    rw [if_neg hne]
    refine bind_eq_ok.mpr ⟨(), ensure_eq_ok.mpr hsfx, ?_⟩
    rw [htrim]
    exact ensure_eq_ok.mpr (Or.inr hdir)

end ObjectKeys
