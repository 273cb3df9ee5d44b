import LightOss.ObjectKeys

/-! # Clean paths — `path` and `filepath` on a slash-separated system

    Cleaning is lexical: empty elements and `.` go, `..` takes the element before it.
    Of a relative path the elements that climb stay at the front (`Climbs`, kept by
    every element in `Climbs.step`), and once the path has climbed it begins with `..`
    for good (`foldl_climbs`).  So a cleaned path that does not begin with `..` never
    left the place it starts from, and joined to a root it is the cleaned root with its
    own elements behind (`foldl_rooted`). -/

namespace PathClean

open Validation ObjectKeys

/-! ## `path.Clean` and `path.Join` -/

/-- The elements `path.Clean` keeps of a path that is not rooted: `..` stays at the front. -/
def cleanRelativeElements (parts : List String) : List String :=
  parts.foldl (fun kept part =>
    if part = "" ∨ part = "." then kept
    else if part = ".." ∧ kept.getLast?.getD ".." ≠ ".." then kept.dropLast
    else kept ++ [part]) []

/-- `path.Clean`. -/
def pathClean (p : String) : String :=
  if hasPrefix p "/" then cleanRooted p
  else if cleanRelativeElements (segments p) = [] then "."
  else joinSegments (cleanRelativeElements (segments p))

/-- `path.Join` of two elements. -/
def pathJoin (a b : String) : String :=
  if a = "" ∧ b = "" then "" else if a = "" then pathClean b else pathClean (a ++ "/" ++ b)

/-- `filepath.Join`. -/
def filepathJoin (elems : List String) : String :=
  match elems.dropWhile (· == "") with
  | [] => ""
  | rest => pathClean (joinSegments rest)

/-- `path.Dir`: what `path.Split` leaves before the last element, cleaned. -/
def pathDir (p : String) : String :=
  pathClean (String.ofList (p.toList.reverse.dropWhile (· != '/')).reverse)

/-! ## Joining good paths -/

/-- Good segments do not begin with a slash. -/
theorem hasPrefix_slash_of_good {s : String} (h : GoodSegments s) : hasPrefix s "/" = false := by
  refine Bool.eq_false_iff.mpr fun hpfx => ?_
  obtain ⟨rest, hrest⟩ := List.isPrefixOf_iff_prefix.mp hpfx
  have hjoin : s = "" ++ "/" ++ String.ofList rest := by
    rw [← String.toList_inj, ← hrest]
    simp
  rw [hjoin] at h
  exact absurd (goodSegments_join.mp h).1 (by decide)

/-- A path of good segments is clean already. -/
theorem pathClean_good {s : String} (h : GoodSegments s) : pathClean s = s := by
  have helems : cleanRelativeElements (segments s) = segments s := by
    refine (foldl_good (fun kept part hempty hdot hdots => ?_) [] _ h).trans (List.nil_append _)
    rw [if_neg (not_or.mpr ⟨hempty, hdot⟩), if_neg fun hp => hdots hp.1]
  have hne : segments s ≠ [] := by
    intro hnil
    have hjoin := joinSegments_segments s
    rw [hnil] at hjoin
    exact ne_empty_of_good h hjoin.symm
  rw [pathClean, hasPrefix_slash_of_good h, helems, if_neg Bool.false_ne_true, if_neg hne,
    joinSegments_segments]

/-- Joining good paths puts a slash between them. -/
theorem pathJoin_good {a b : String} (ha : GoodSegments a) (hb : GoodSegments b) :
    pathJoin a b = a ++ "/" ++ b := by
  rw [pathJoin, if_neg fun h => ne_empty_of_good ha h.1, if_neg (ne_empty_of_good ha),
    pathClean_good (goodSegments_join.mpr ⟨ha, hb⟩)]

/-! ## Splitting and joining -/

theorem free_of_mem_segments {s part : String} (h : part ∈ segments s) : '/' ∉ part.toList := by
  have hsplit : ∀ (l cell : List Char), cell ∈ l.splitOn '/' → '/' ∉ cell := by
    intro l
    induction l with
    | nil =>
        intro cell hcell
        rw [List.splitOn_nil, List.mem_singleton] at hcell
        rw [hcell]
        exact List.not_mem_nil
    | cons c rest ih =>
        intro cell hcell
        rw [List.splitOn_cons_eq_if_modifyHead] at hcell
        split at hcell
        · rcases List.mem_cons.mp hcell with rfl | hcell
          · exact List.not_mem_nil
          · exact ih cell hcell
        · next hc =>
            obtain ⟨head, tail, hrest⟩ := List.exists_cons_of_ne_nil (List.splitOn_ne_nil '/' rest)
            -- a character goes to the front of the first segment, and is no slash
            rw [hrest] at hcell ih
            rcases List.mem_cons.mp hcell with rfl | hcell
            · rw [List.mem_cons]
              exact not_or.mpr ⟨fun heq => hc (beq_iff_eq.mpr heq.symm), ih head List.mem_cons_self⟩
            · exact ih cell (List.mem_cons_of_mem _ hcell)
  obtain ⟨cell, hcell, rfl⟩ := List.mem_map.mp h
  rw [String.toList_ofList]
  exact hsplit _ cell hcell

/-- Splitting undoes the joining of parts without slashes. -/
theorem segments_joinSegments {parts : List String} (hne : parts ≠ [])
    (hfree : ∀ part ∈ parts, '/' ∉ part.toList) : segments (joinSegments parts) = parts := by
  rw [segments, joinSegments, String.toList_ofList, List.splitOn_intercalate]
  · rw [List.map_map]
    have hid : (String.ofList ∘ String.toList) = id := funext fun _ => String.ofList_toList
    rw [hid, List.map_id]
  · intro cell hcell
    obtain ⟨part, hpart, rfl⟩ := List.mem_map.mp hcell
    exact hfree part hpart
  · exact fun hnil => hne (List.map_eq_nil_iff.mp hnil)

/-- Good parts are the segments of what they join to. -/
theorem good_joinSegments {parts : List String}
    (h : ∀ part ∈ parts, '/' ∉ part.toList ∧ badSegment part = false) (hne : parts ≠ []) :
    segments (joinSegments parts) = parts ∧ GoodSegments (joinSegments parts) := by
  have hsegs := segments_joinSegments hne fun part hpart => (h part hpart).1
  refine ⟨hsegs, ?_⟩
  rw [GoodSegments, hsegs, List.all_eq_true]
  intro part hpart
  rw [(h part hpart).2]
  rfl

theorem joinSegments_cons (part : String) {rest : List String} (hne : rest ≠ []) :
    joinSegments (part :: rest) = part ++ "/" ++ joinSegments rest := by
  obtain ⟨next, tail, rfl⟩ := List.exists_cons_of_ne_nil hne
  rw [← String.toList_inj, joinSegments, joinSegments]
  simp [List.intercalate]

theorem joinSegments_append {front back : List String} (hfront : front ≠ []) (hback : back ≠ []) :
    joinSegments (front ++ back) = joinSegments front ++ "/" ++ joinSegments back := by
  induction front with
  | nil => exact absurd rfl hfront
  | cons part rest ih =>
      rw [List.cons_append, joinSegments_cons part (List.append_ne_nil_of_right_ne_nil _ hback)]
      by_cases hrest : rest = []
      · rw [hrest, List.nil_append]
        congr 2
        rw [← String.toList_inj, joinSegments]
        simp [List.intercalate]
      · rw [ih hrest, joinSegments_cons part hrest]
        simp only [String.append_assoc]

/-! ## The two scans of `Clean` -/

/-- What one element does to a rooted path. -/
def rootedStep (kept : List String) (part : String) : List String :=
  if part = "" ∨ part = "." then kept
  else if part = ".." then kept.dropLast
  else kept ++ [part]

/-- What one element does to a path that is not rooted. -/
def relativeStep (kept : List String) (part : String) : List String :=
  if part = "" ∨ part = "." then kept
  else if part = ".." ∧ kept.getLast?.getD ".." ≠ ".." then kept.dropLast
  else kept ++ [part]

theorem cleanElements_eq (parts : List String) : cleanElements parts = parts.foldl rootedStep [] :=
  rfl

theorem cleanRelativeElements_eq (parts : List String) :
    cleanRelativeElements parts = parts.foldl relativeStep [] := rfl

/-- The climbing elements stand at the front. -/
def Climbs (kept : List String) : Prop :=
  ∃ n rest, kept = List.replicate n ".." ++ rest ∧ ".." ∉ rest

/-- One element more: either it is kept behind, or it takes one back, or it climbs. -/
theorem Climbs.step {kept : List String} (h : Climbs kept) (part : String) :
    Climbs (relativeStep kept part) := by
  obtain ⟨n, rest, rfl, hrest⟩ := h
  rw [relativeStep]
  split
  · exact ⟨n, rest, rfl, hrest⟩
  rcases List.eq_nil_or_concat rest with rfl | ⟨front, last, rfl⟩
  · -- only climbing elements so far: one more stays, anything else is the first to go down
    have hlast : (List.replicate n ".." ++ []).getLast?.getD ".." = ".." := by
      rw [List.append_nil, List.getLast?_replicate]
      split <;> rfl
    rw [if_neg fun hp => hp.2 hlast, List.append_nil]
    by_cases hdots : part = ".."
    · exact ⟨n + 1, [], by rw [hdots, List.replicate_succ', List.append_nil], List.not_mem_nil⟩
    · exact ⟨n, [part], rfl, fun hmem => hdots (List.mem_singleton.mp hmem).symm⟩
  · rw [List.concat_eq_append] at hrest ⊢
    -- the last element goes down, so `..` takes it and anything else is kept behind
    have hlast : last ≠ ".." := fun heq => hrest (by rw [heq]; simp)
    split
    · refine ⟨n, front, ?_, fun hmem => hrest (List.mem_append_left _ hmem)⟩
      rw [← List.append_assoc, List.dropLast_concat]
    · next hkeep =>
        have hpart : part ≠ ".." := by
          intro hdots
          refine hkeep ⟨hdots, ?_⟩
          rw [← List.append_assoc, List.getLast?_concat]
          exact hlast
        refine ⟨n, front ++ [last] ++ [part], by simp, ?_⟩
        rw [List.mem_append, List.mem_singleton]
        exact not_or.mpr ⟨hrest, Ne.symm hpart⟩

/-- The climbing elements stay at the front through the whole fold. -/
theorem climbs_foldl (parts : List String) {kept : List String} (h : Climbs kept) :
    Climbs (parts.foldl relativeStep kept) := by
  induction parts generalizing kept with
  | nil => exact h
  | cons part rest ih => exact ih (h.step part)

/-- The scan keeps elements of the path only, and no empty one and no dot. -/
theorem mem_foldl_relative {parts kept : List String} {elem : String}
    (h : elem ∈ parts.foldl relativeStep kept) :
    elem ∈ kept ∨ (elem ∈ parts ∧ elem ≠ "" ∧ elem ≠ ".") := by
  induction parts generalizing kept with
  | nil => exact Or.inl h
  | cons part rest ih =>
      rcases ih h with hkept | ⟨hmem, hgood⟩
      · rw [relativeStep] at hkept
        split at hkept
        · exact Or.inl hkept
        next hnot =>
        split at hkept
        · exact Or.inl (List.dropLast_subset _ hkept)
        · rcases List.mem_append.mp hkept with hkept | hpart
          · exact Or.inl hkept
          · rw [List.mem_singleton.mp hpart]
            exact Or.inr ⟨List.mem_cons_self, fun he => hnot (Or.inl he),
              fun he => hnot (Or.inr he)⟩
      · exact Or.inr ⟨List.mem_cons_of_mem _ hmem, hgood⟩

/-- Once the path has climbed, it begins with `..` for good. -/
theorem foldl_climbs (parts kept : List String) :
    ∃ rest, parts.foldl relativeStep (".." :: kept) = ".." :: rest := by
  induction parts generalizing kept with
  | nil => exact ⟨kept, rfl⟩
  | cons part rest ih =>
      rw [List.foldl_cons, relativeStep]
      split
      · exact ih kept
      split
      · next hdrop =>
          cases kept with
          | nil => exact absurd rfl hdrop.2
          | cons next tail =>
              rw [List.dropLast_cons_of_ne_nil (List.cons_ne_nil _ _)]
              exact ih _
      · exact ih (kept ++ [part])

/-- **Containment.**  While a path does not climb, scanning it behind a root leaves the
    root alone and keeps what scanning it alone keeps. -/
theorem foldl_rooted (root : List String) : ∀ (parts kept : List String), ".." ∉ kept →
    ".." ∉ parts.foldl relativeStep kept →
      parts.foldl rootedStep (root ++ kept) = root ++ parts.foldl relativeStep kept := by
  intro parts
  induction parts with
  | nil => exact fun _ _ _ => rfl
  | cons part rest ih =>
      intro kept hkept h
      rw [List.foldl_cons] at h ⊢
      rw [List.foldl_cons, rootedStep]
      by_cases hskip : part = "" ∨ part = "."
      -- an empty element or a dot: both scans pass over it
      · rw [relativeStep, if_pos hskip] at h ⊢
        rw [if_pos hskip]
        exact ih kept hkept h
      rw [relativeStep, if_neg hskip] at h ⊢
      rw [if_neg hskip]
      by_cases hdots : part = ".."
      · rw [if_pos hdots]
        rcases List.eq_nil_or_concat kept with rfl | ⟨front, last, rfl⟩
        · -- here the path would climb
          rw [if_neg (fun hp => hp.2 rfl), List.nil_append, hdots] at h
          obtain ⟨tail, htail⟩ := foldl_climbs rest []
          rw [htail] at h
          exact absurd List.mem_cons_self h
        -- `..` takes the last element of the path, which lies behind the root
        · rw [List.concat_eq_append] at h hkept ⊢
          have hlast : last ≠ ".." := fun heq => hkept (by rw [heq]; simp)
          have hdrop : part = ".." ∧ (front ++ [last]).getLast?.getD ".." ≠ ".." := by
            refine ⟨hdots, ?_⟩
            rw [List.getLast?_concat]
            exact hlast
          rw [if_pos hdrop, List.dropLast_concat] at h ⊢
          rw [← List.append_assoc, List.dropLast_concat]
          exact ih front (fun hmem => hkept (List.mem_append_left _ hmem)) h
      -- any other element is kept by both
      · have hkeep : ¬ (part = ".." ∧ kept.getLast?.getD ".." ≠ "..") := fun hp => hdots hp.1
        rw [if_neg hkeep] at h ⊢
        rw [if_neg hdots, List.append_assoc]
        refine ih (kept ++ [part]) ?_ h
        rw [List.mem_append, List.mem_singleton]
        exact not_or.mpr ⟨hkept, fun heq => hdots heq.symm⟩

/-! ## Cleaned paths -/

/-- A path with nothing but the elements of a path that does not climb. -/
theorem clean_relative {p : String} (hrel : hasPrefix (pathClean p) "/" = false)
    (hdot : pathClean p ≠ ".") (hup : pathClean p ≠ "..")
    (hups : hasPrefix (pathClean p) "../" = false) :
    pathClean p = joinSegments (cleanRelativeElements (segments p))
      ∧ GoodSegments (pathClean p) ∧ ".." ∉ cleanRelativeElements (segments p)
      ∧ cleanRelativeElements (segments p) ≠ [] := by
  have hroot : hasPrefix p "/" = false := by
    refine Bool.eq_false_iff.mpr fun hp => ?_
    rw [pathClean, if_pos hp, cleanRooted, hasPrefix, String.toList_append] at hrel
    exact absurd hrel (by simp)
  have hne : cleanRelativeElements (segments p) ≠ [] := by
    intro hnil
    refine hdot ?_
    rw [pathClean, hroot, if_neg Bool.false_ne_true, if_pos hnil]
  have hclean : pathClean p = joinSegments (cleanRelativeElements (segments p)) := by
    rw [pathClean, hroot, if_neg Bool.false_ne_true, if_neg hne]
  have hmem : ∀ elem ∈ cleanRelativeElements (segments p),
      elem ∈ segments p ∧ elem ≠ "" ∧ elem ≠ "." := by
    intro elem helem
    exact (mem_foldl_relative helem).resolve_left List.not_mem_nil
  have hclimb : ".." ∉ cleanRelativeElements (segments p) := by
    have hstart : Climbs [] := ⟨0, [], rfl, List.not_mem_nil⟩
    obtain ⟨n, rest, helems, hrest⟩ := climbs_foldl (segments p) hstart
    rw [← cleanRelativeElements_eq] at helems
    cases n with
    | zero => rwa [helems]
    | succ n =>
        -- a climbing path is `..` itself or begins with `../`
        exfalso
        rw [List.replicate_succ, List.cons_append] at helems
        rw [hclean, helems] at hup hups
        by_cases hlast : List.replicate n ".." ++ rest = []
        · rw [hlast] at hup
          exact hup (by decide)
        · rw [joinSegments_cons _ hlast, hasPrefix, String.toList_append] at hups
          exact absurd hups (by simp)
  refine ⟨hclean, ?_, hclimb, hne⟩
  rw [hclean, GoodSegments, segments_joinSegments hne fun elem helem =>
    free_of_mem_segments (hmem elem helem).1, List.all_eq_true]
  intro elem helem
  obtain ⟨-, hempty, hdot⟩ := hmem elem helem
  have hdots : elem ≠ ".." := fun heq => hclimb (heq ▸ helem)
  simp [badSegment, hempty, hdot, hdots]

/-- A path below a cleaned root. -/
def extend (root rest : String) : String := if root = "/" then "/" ++ rest else root ++ "/" ++ rest

/-- Parts that are not empty join to the empty text only when there are none. -/
theorem joinSegments_eq_empty {parts : List String} (h : ∀ part ∈ parts, part ≠ "") :
    joinSegments parts = "" ↔ parts = [] := by
  constructor
  · intro hempty
    cases parts with
    | nil => rfl
    | cons part rest =>
        exfalso
        by_cases hrest : rest = []
        · rw [hrest] at hempty
          exact h part List.mem_cons_self (by simpa [joinSegments] using hempty)
        · rw [joinSegments_cons part hrest] at hempty
          have := congrArg String.toList hempty
          simp at this
  · rintro rfl
    rfl

/-- The scan of a rooted path keeps good elements of it. -/
theorem mem_cleanElements {parts : List String} {elem : String} (h : elem ∈ cleanElements parts) :
    elem ∈ parts ∧ badSegment elem = false := by
  have hkept : ∀ (parts kept : List String), elem ∈ parts.foldl rootedStep kept →
      elem ∈ kept ∨ (elem ∈ parts ∧ badSegment elem = false) := by
    intro parts
    induction parts with
    | nil => exact fun _ h => Or.inl h
    | cons part rest ih =>
        intro kept h
        rcases ih _ h with hkept | ⟨hmem, hgood⟩
        · rw [rootedStep] at hkept
          split at hkept
          · exact Or.inl hkept
          next hskip =>
          split at hkept
          · exact Or.inl (List.dropLast_subset _ hkept)
          next hdots =>
          rcases List.mem_append.mp hkept with hkept | hpart
          · exact Or.inl hkept
          · have hgood := not_or.mp hskip
            rw [List.mem_singleton.mp hpart]
            exact Or.inr ⟨List.mem_cons_self, by simp [badSegment, hgood.1, hgood.2, hdots]⟩
        · exact Or.inr ⟨List.mem_cons_of_mem _ hmem, hgood⟩
  exact (hkept parts [] h).resolve_left List.not_mem_nil

theorem ne_empty_of_cleanElements {parts : List String} {elem : String}
    (h : elem ∈ cleanElements parts) : elem ≠ "" := by
  rintro rfl
  exact Bool.false_ne_true ((mem_cleanElements h).2.symm.trans rfl)

/-- The elements of a path below a root. -/
theorem extend_eq {root rest : String} (habs : hasPrefix root "/" = true) :
    extend (pathClean root) rest
      = "/" ++ joinSegments (cleanElements (segments root) ++ segments rest) := by
  have hrooted : pathClean root = "/" ++ joinSegments (cleanElements (segments root)) := by
    rw [pathClean, if_pos habs, cleanRooted]
  have hempty : pathClean root = "/" ↔ cleanElements (segments root) = [] := by
    rw [hrooted, ← joinSegments_eq_empty fun _ => ne_empty_of_cleanElements]
    exact String.append_eq_left_iff
  have hne : segments rest ≠ [] := by
    rw [segments, Ne, List.map_eq_nil_iff]
    exact List.splitOn_ne_nil _ _
  rw [extend]
  split
  · next h => rw [hempty.mp h, List.nil_append, joinSegments_segments]
  · next h =>
      rw [joinSegments_append (fun hnil => h (hempty.mpr hnil)) hne, joinSegments_segments, hrooted]
      simp only [String.append_assoc]

/-- **Joining to a root**: a path that does not climb lies below the cleaned root. -/
theorem filepathJoin_contained {root p : String} (habs : hasPrefix root "/" = true)
    (hrel : hasPrefix (pathClean p) "/" = false) (hdot : pathClean p ≠ ".")
    (hup : pathClean p ≠ "..") (hups : hasPrefix (pathClean p) "../" = false) :
    filepathJoin [root, p] = extend (pathClean root) (pathClean p) := by
  obtain ⟨hclean, -, hclimb, hne⟩ := clean_relative hrel hdot hup hups
  have hroot : root ≠ "" := by
    rintro rfl
    exact absurd habs (by decide)
  have hjoin : filepathJoin [root, p] = cleanRooted (root ++ "/" ++ p) := by
    have hdrop : [root, p].dropWhile (· == "") = [root, p] := by
      rw [List.dropWhile_cons_of_neg]
      rwa [beq_iff_eq]
    have hslash : hasPrefix (root ++ "/" ++ p) "/" = true := by
      rw [hasPrefix, List.isPrefixOf_iff_prefix] at habs ⊢
      rw [String.toList_append, String.toList_append, List.append_assoc]
      exact habs.trans (List.prefix_append _ _)
    have hparts : joinSegments [root, p] = root ++ "/" ++ p := by
      rw [joinSegments_cons root (List.cons_ne_nil _ _)]
      congr 1
      simp [joinSegments]
    rw [filepathJoin, hdrop]
    show pathClean (joinSegments [root, p]) = _
    rw [hparts, pathClean, if_pos hslash]
  have hscan : cleanElements (segments (root ++ "/" ++ p))
      = cleanElements (segments root) ++ cleanRelativeElements (segments p) := by
    rw [segments_join, cleanElements_eq, List.foldl_append]
    have hfold :=
      foldl_rooted (cleanElements (segments root)) (segments p) [] List.not_mem_nil hclimb
    rwa [List.append_nil] at hfold
  have hfree : ∀ elem ∈ cleanRelativeElements (segments p), '/' ∉ elem.toList := by
    intro elem helem
    have hmem := (mem_foldl_relative helem).resolve_left List.not_mem_nil
    exact free_of_mem_segments hmem.1
  rw [hjoin, cleanRooted, hscan, extend_eq habs, hclean, segments_joinSegments hne hfree]

/-! ## `path.Dir` -/

/-- The directory of a path whose last element is known. -/
theorem pathDir_append (dir : String) {name : String} (hfree : '/' ∉ name.toList) :
    pathDir (dir ++ "/" ++ name) = pathClean (dir ++ "/") := by
  have hchars : (dir ++ "/" ++ name).toList.reverse
      = name.toList.reverse ++ '/' :: dir.toList.reverse := by
    simp
  have hdrop : (name.toList.reverse ++ '/' :: dir.toList.reverse).dropWhile (· != '/')
      = '/' :: dir.toList.reverse := by
    rw [List.dropWhile_append_of_pos, List.dropWhile_cons_of_neg (by decide)]
    intro c hc
    rw [bne_iff_ne]
    rintro rfl
    exact hfree (List.mem_reverse.mp hc)
  rw [pathDir, hchars, hdrop]
  congr 1
  rw [← String.toList_inj]
  simp

/-- A path without a slash has no directory. -/
theorem pathDir_free {name : String} (hfree : '/' ∉ name.toList) : pathDir name = "." := by
  have hdrop : name.toList.reverse.dropWhile (· != '/') = [] := by
    rw [List.dropWhile_eq_nil_iff]
    intro c hc
    rw [bne_iff_ne]
    rintro rfl
    exact hfree (List.mem_reverse.mp hc)
  rw [pathDir, hdrop]
  decide

/-- Cleaning takes the slash behind a rooted path of good elements. -/
theorem pathClean_rooted {elems : List String}
    (h : ∀ elem ∈ elems, '/' ∉ elem.toList ∧ badSegment elem = false) (hne : elems ≠ []) :
    pathClean ("/" ++ joinSegments elems ++ "/") = "/" ++ joinSegments elems := by
  have hslash : hasPrefix ("/" ++ joinSegments elems ++ "/") "/" = true := by
    rw [hasPrefix, String.toList_append, String.toList_append, List.append_assoc]
    exact List.isPrefixOf_iff_prefix.mpr (List.prefix_append _ _)
  have hjoin :
      "/" ++ joinSegments elems ++ "/" = "" ++ "/" ++ (joinSegments elems ++ "/" ++ "") := by
    rw [String.empty_append, String.append_empty, String.append_assoc]
  have hgood : elems.all (fun part => !badSegment part) = true := by
    rw [List.all_eq_true]
    intro elem helem
    rw [(h elem helem).2]
    rfl
  have hscan : cleanElements (segments ("/" ++ joinSegments elems ++ "/")) = elems := by
    rw [hjoin, segments_join, segments_join, segments_joinSegments hne fun e he => (h e he).1,
      cleanElements_eq]
    show (elems ++ [""]).foldl rootedStep [] = elems
    rw [List.foldl_append, foldl_good (fun kept part hempty hdot hdots => ?_) [] _ hgood]
    · rfl
    · rw [rootedStep, if_neg (not_or.mpr ⟨hempty, hdot⟩), if_neg hdots]
  rw [pathClean, if_pos hslash, cleanRooted, hscan]

/-- The directory of a path below a root is the root or below it. -/
theorem pathDir_extend {root rest : String} (habs : hasPrefix root "/" = true)
    (h : GoodSegments rest) : pathDir (extend (pathClean root) rest) = pathClean root
      ∨ ∃ dir, GoodSegments dir ∧ pathDir (extend (pathClean root) rest)
          = extend (pathClean root) dir := by
  obtain ⟨init, last, hparts⟩ : ∃ init last, segments rest = init ++ [last] := by
    rcases List.eq_nil_or_concat (segments rest) with hnil | ⟨init, last, hconcat⟩
    · rw [segments, List.map_eq_nil_iff] at hnil
      exact absurd hnil (List.splitOn_ne_nil _ _)
    · exact ⟨init, last, hconcat.trans List.concat_eq_append⟩
  have hgood : ∀ elem ∈ init ++ [last], '/' ∉ elem.toList ∧ badSegment elem = false := by
    intro elem helem
    rw [← hparts] at helem
    exact ⟨free_of_mem_segments helem, by simpa using List.all_eq_true.mp h elem helem⟩
  have hlast := hgood last (List.mem_append_right _ (List.mem_singleton_self _))
  have helems : ∀ elem ∈ cleanElements (segments root) ++ init,
      '/' ∉ elem.toList ∧ badSegment elem = false := by
    intro elem helem
    rcases List.mem_append.mp helem with helem | helem
    · obtain ⟨hmem, hbad⟩ := mem_cleanElements helem
      exact ⟨free_of_mem_segments hmem, hbad⟩
    · exact hgood elem (List.mem_append_left _ helem)
  have hdir : pathDir (extend (pathClean root) rest)
      = "/" ++ joinSegments (cleanElements (segments root) ++ init) := by
    rw [extend_eq habs, hparts, ← List.append_assoc]
    by_cases hnil : cleanElements (segments root) ++ init = []
    · have hname : "/" ++ joinSegments ([] ++ [last]) = "" ++ "/" ++ last := by
        simp [joinSegments]
      rw [hnil, hname, pathDir_append "" hlast.1]
      decide
    · rw [joinSegments_append hnil (List.cons_ne_nil _ _)]
      have hname : "/" ++ (joinSegments (cleanElements (segments root) ++ init) ++ "/"
          ++ joinSegments [last])
          = ("/" ++ joinSegments (cleanElements (segments root) ++ init)) ++ "/" ++ last := by
        simp [joinSegments, String.append_assoc]
      rw [hname, pathDir_append _ hlast.1, pathClean_rooted helems hnil]
  by_cases hinit : init = []
  · refine Or.inl ?_
    rw [hdir, hinit, List.append_nil, pathClean, if_pos habs, cleanRooted]
  · have hfree : ∀ elem ∈ init, '/' ∉ elem.toList := fun elem helem =>
      (hgood elem (List.mem_append_left _ helem)).1
    refine Or.inr ⟨joinSegments init, ?_, ?_⟩
    · rw [GoodSegments, segments_joinSegments hinit hfree, List.all_eq_true]
      intro elem helem
      rw [(hgood elem (List.mem_append_left _ helem)).2]
      rfl
    · rw [hdir, extend_eq habs, segments_joinSegments hinit hfree]

end PathClean
