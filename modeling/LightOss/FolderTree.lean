import LightOss.PathClean
import LightOss.Addressable
import Mathlib.Data.String.Basic

/-! # Folder tree — the folders a bucket's keys are in

    `ListFolders` goes through the keys of a bucket and notes every directory above
    each of them.  For keys of good segments the nodes are exactly the directory
    prefixes of the keys, and every parent is there.  A key with a slash in front is
    cleaned on the way, and its folders are then no prefixes of it.

    The invariant of the loop is `Forest`.  What one part of a path adds is
    `addFolder_spec`, what a path adds `foldl_addFolder`, what a key adds `addKey_spec`,
    and what the bucket's keys leave `folderNodes_spec`.  Which keys a request may
    write comes from the checks of the services (`keysStored_of_reachable`). -/

namespace FolderTree

open KeyedTable Fallible LedgerRows Catalog Validation MetadataServices BatchPublication
open ObjectServices RequestRows ObjectKeys PathClean Addressable

variable {k : Collation} {c : Tables k}

/-! ## `explorer_path.go` and `ListFolders` -/

structure FolderNode where
  path : String
  name : String
  parentPath : String
  deriving DecidableEq

/-- `folderPathFromObjectKey`: the directory of a key, without a slash in front. -/
def folderPathFromObjectKey (key : String) : String :=
  let dir := pathDir key
  if dir = "." ∨ dir = "/" then "" else trimPrefix dir "/" ++ "/"

/-- `parentFolderPath`: empty for a folder at the top. -/
def parentFolderPath (folderPath : String) : String :=
  let trimmed := trimSuffix folderPath "/"
  if trimmed = "" ∨ contains trimmed "/" = false then ""
  else
    let parent := pathDir trimmed
    if parent = "." ∨ parent = "/" then "" else trimPrefix parent "/" ++ "/"

/-- One part of the path: the map, whose keys are the paths of its nodes, and `current`. -/
def addFolder (st : List FolderNode × String) (part : String) : List FolderNode × String :=
  let current := if st.2 = "" then part ++ "/" else st.2 ++ (part ++ "/")
  if st.1.any fun node => node.path == current then (st.1, current)
  else (st.1 ++ [⟨current, part, parentFolderPath current⟩], current)

/-- `addFolderHierarchy`: every directory on the way to a folder. -/
def addFolderHierarchy (folderMap : List FolderNode) (folderPath : String) : List FolderNode :=
  let trimmed := trimSuffix folderPath "/"
  if trimmed = "" then folderMap else ((segments trimmed).foldl addFolder (folderMap, "")).1

/-- One turn of the loop over the keys. -/
def addKey (folderMap : List FolderNode) (key : String) : List FolderNode :=
  let folderPath := folderPathFromObjectKey key
  if folderPath = "" then folderMap else addFolderHierarchy folderMap folderPath

/-- The nodes of a set of keys, sorted by path. -/
def folderNodes (keys : List String) : List FolderNode :=
  (keys.foldl addKey []).mergeSort fun a b => decide (a.path ≤ b.path)

/-- `ListActiveKeys`, `ORDER BY object_key ASC`. -/
def listActiveKeys (c : Tables k) (bucketName : String) : List String :=
  ((c.objects.select fun o => k.eq o.bucketName bucketName).mergeSort
    fun a b => k.le a.objectKey b.objectKey).map (·.objectKey)

/-- `ListFolders`: the nodes of all active keys, sorted by path. -/
def listFolders (c : Tables k) (bucketName : String) : Except Err (List FolderNode) := do
  validateBucketName bucketName
  ensureBucketExists c bucketName
  return folderNodes (listActiveKeys c bucketName)

/-! ## Paths and their parts -/

/-- The folder path with the given parts. -/
def pathOf (parts : List String) : String :=
  if parts = [] then "" else joinSegments parts ++ "/"

/-- The node of a folder. -/
def nodeOf (front : List String) (name : String) : FolderNode :=
  ⟨pathOf (front ++ [name]), name, pathOf front⟩

/-- Parts of a clean path. -/
def Parts (parts : List String) : Prop :=
  ∀ part ∈ parts, '/' ∉ part.toList ∧ badSegment part = false

/-- The segments of a good key are good parts. -/
theorem parts_of_good {s : String} (h : GoodSegments s) : Parts (segments s) := by
  intro part hpart
  exact ⟨free_of_mem_segments hpart, by simpa using List.all_eq_true.mp h part hpart⟩

/-- Joining good parts and splitting again changes nothing. -/
theorem Parts.good {parts : List String} (h : Parts parts) (hne : parts ≠ []) :
    segments (joinSegments parts) = parts ∧ GoodSegments (joinSegments parts) :=
  good_joinSegments h hne

/-- The path of at least one part is not empty. -/
theorem pathOf_cons_ne {parts : List String} (hne : parts ≠ []) : pathOf parts ≠ "" := by
  rw [pathOf, if_neg hne]
  intro hempty
  have := congrArg String.toList hempty
  simp at this

/-- One part more is one directory further down. -/
theorem pathOf_concat (front : List String) (name : String) :
    pathOf (front ++ [name]) = pathOf front ++ (name ++ "/") := by
  rw [pathOf, if_neg (List.append_ne_nil_of_right_ne_nil _ (List.cons_ne_nil _ _)), pathOf]
  have hname : joinSegments [name] = name := by simp [joinSegments]
  split
  · next hnil => rw [hnil, List.nil_append, hname, String.empty_append]
  · next hne =>
      rw [joinSegments_append hne (List.cons_ne_nil _ _), hname]
      simp only [String.append_assoc]

/-- Different parts make different paths. -/
theorem pathOf_injective {a b : List String} (ha : Parts a) (hb : Parts b)
    (h : pathOf a = pathOf b) : a = b := by
  by_cases hna : a = []
  · by_contra hne
    have hnb : b ≠ [] := fun hnb => hne (hna.trans hnb.symm)
    rw [hna] at h
    exact pathOf_cons_ne hnb h.symm
  by_cases hnb : b = []
  · rw [hnb] at h
    exact absurd h (pathOf_cons_ne hna)
  rw [pathOf, if_neg hna, pathOf, if_neg hnb] at h
  have hjoin : joinSegments a = joinSegments b := by
    rw [← trimSuffix_append (joinSegments a) "/", h, trimSuffix_append]
  rw [← (ha.good hna).1, ← (hb.good hnb).1, hjoin]

/-- The directory of a path below good segments is what stands before its last slash. -/
theorem pathClean_slash {dir : String} (h : GoodSegments dir) : pathClean (dir ++ "/") = dir := by
  have hne := ne_empty_of_good h
  have hslash : hasPrefix (dir ++ "/") "/" = false := by
    refine Bool.eq_false_iff.mpr fun hpfx => ?_
    have hown := hasPrefix_slash_of_good h
    rw [hasPrefix, List.isPrefixOf_iff_prefix, String.toList_append] at hpfx
    refine Bool.false_ne_true (hown.symm.trans (List.isPrefixOf_iff_prefix.mpr ?_))
    refine List.prefix_of_prefix_length_le hpfx (List.prefix_append _ _) ?_
    exact List.length_pos_of_ne_nil fun hnil => hne (String.toList_inj.mp hnil)
  have hsegs : segments (dir ++ "/") = segments dir ++ [""] := by
    have hjoin := segments_join dir ""
    rwa [String.append_empty] at hjoin
  have hscan : cleanRelativeElements (segments (dir ++ "/")) = segments dir := by
    rw [hsegs, cleanRelativeElements_eq, List.foldl_append,
      foldl_good (fun kept part hempty hdot hdots => ?_) [] _ h]
    · rfl
    · rw [relativeStep, if_neg (not_or.mpr ⟨hempty, hdot⟩), if_neg fun hp => hdots hp.1]
  have hnil : segments dir ≠ [] := by
    rw [segments, Ne, List.map_eq_nil_iff]
    exact List.splitOn_ne_nil _ _
  rw [pathClean, hslash, hscan, if_neg Bool.false_ne_true, if_neg hnil, joinSegments_segments]

/-- The shape both path functions share: the directory, unless it is no folder. -/
theorem dirPath_good {dir : String} (h : GoodSegments dir) :
    (if dir = "." ∨ dir = "/" then "" else trimPrefix dir "/" ++ "/") = dir ++ "/" := by
  have hnot : ¬ (dir = "." ∨ dir = "/") := by
    rintro (rfl | rfl)
    · exact absurd h (by decide)
    · exact absurd h (by decide)
  rw [if_neg hnot, trimPrefix, hasPrefix_slash_of_good h, if_neg Bool.false_ne_true]

/-- The parent of a path is the path without its last part. -/
theorem parentFolderPath_pathOf {front : List String} {name : String}
    (h : Parts (front ++ [name])) : parentFolderPath (pathOf (front ++ [name])) = pathOf front := by
  have hne : front ++ [name] ≠ [] := List.append_ne_nil_of_right_ne_nil _ (List.cons_ne_nil _ _)
  have hname := h name (List.mem_append_right _ (List.mem_singleton_self _))
  have hfront : Parts front := fun part hpart => h part (List.mem_append_left _ hpart)
  have hsingle : joinSegments [name] = name := by simp [joinSegments]
  rw [pathOf, if_neg hne, parentFolderPath, trimSuffix_append]
  dsimp only
  by_cases hnil : front = []
  · have hfree : contains name "/" = false := by
      rw [← Bool.not_eq_true, contains_char (c := '/') rfl]
      exact hname.1
    rw [hnil, List.nil_append, hsingle, if_pos (Or.inr hfree), pathOf, if_pos rfl]
  · have hgood := (hfront.good hnil).2
    rw [joinSegments_append hnil (List.cons_ne_nil _ _), hsingle, if_neg, pathDir_append _ hname.1,
      pathClean_slash hgood, dirPath_good hgood, pathOf, if_neg hnil]
    rintro (hempty | hfree)
    · have := congrArg String.toList hempty
      simp at this
    · refine Bool.false_ne_true (hfree.symm.trans ((contains_char (c := '/') rfl).mpr ?_))
      simp

/-! ## The map of nodes -/

/-- A node of this path is in the list. -/
def HasPath (nodes : List FolderNode) (p : String) : Prop := ∃ node ∈ nodes, node.path = p

/-- The invariant of the map: nodes of clean parts, each path once, every parent there. -/
structure Forest (nodes : List FolderNode) : Prop where
  made : ∀ node ∈ nodes, ∃ front name, Parts (front ++ [name]) ∧ node = nodeOf front name
  distinct : nodes.Pairwise fun a b => a.path ≠ b.path
  closed : ∀ node ∈ nodes, node.parentPath = "" ∨ HasPath nodes node.parentPath

theorem hasPath_append {nodes : List FolderNode} {node : FolderNode} {p : String} :
    HasPath (nodes ++ [node]) p ↔ HasPath nodes p ∨ p = node.path := by
  constructor
  · rintro ⟨a, ha, rfl⟩
    rcases List.mem_append.mp ha with ha | ha
    · exact Or.inl ⟨a, ha, rfl⟩
    · exact Or.inr (by rw [List.mem_singleton.mp ha])
  · rintro (⟨a, ha, rfl⟩ | rfl)
    · exact ⟨a, List.mem_append_left _ ha, rfl⟩
    · exact ⟨node, List.mem_append_right _ (List.mem_singleton_self _), rfl⟩

/-- What one part adds, when the folder above it is there. -/
theorem addFolder_spec {nodes : List FolderNode} {front : List String} {part : String}
    (hparts : Parts (front ++ [part])) (h : Forest nodes)
    (habove : front = [] ∨ HasPath nodes (pathOf front)) :
    ∃ nodes', addFolder (nodes, pathOf front) part = (nodes', pathOf (front ++ [part]))
      ∧ Forest nodes' ∧ ∀ p, HasPath nodes' p ↔ HasPath nodes p ∨ p = pathOf (front ++ [part]) := by
  have hcurrent : (if pathOf front = "" then part ++ "/" else pathOf front ++ (part ++ "/"))
      = pathOf (front ++ [part]) := by
    rw [pathOf_concat]
    split
    · next hempty => rw [hempty, String.empty_append]
    · rfl
  rw [addFolder]
  dsimp only
  rw [hcurrent]
  split
  -- the folder is known already
  · next hexists =>
      obtain ⟨node, hnode, hpath⟩ := List.any_eq_true.mp hexists
      refine ⟨nodes, rfl, h, fun p => ⟨Or.inl, ?_⟩⟩
      rintro (hp | rfl)
      · exact hp
      · exact ⟨node, hnode, beq_iff_eq.mp hpath⟩
  -- a new node, whose parent is the folder above
  · next hnew =>
      have hfresh : ∀ node ∈ nodes, node.path ≠ pathOf (front ++ [part]) := by
        intro node hnode heq
        exact hnew (List.any_eq_true.mpr ⟨node, hnode, beq_iff_eq.mpr heq⟩)
      have hnode : (⟨pathOf (front ++ [part]), part, parentFolderPath (pathOf (front ++ [part]))⟩ :
          FolderNode) = nodeOf front part := by
        rw [nodeOf, parentFolderPath_pathOf hparts]
      refine ⟨nodes ++ [nodeOf front part], by rw [hnode], ?_, fun p => hasPath_append⟩
      refine ⟨fun node hmem => ?_, ?_, fun node hmem => ?_⟩
      · rcases List.mem_append.mp hmem with hmem | hmem
        · exact h.made node hmem
        · exact ⟨front, part, hparts, List.mem_singleton.mp hmem⟩
      · rw [List.pairwise_append]
        refine ⟨h.distinct, List.pairwise_singleton _ _, fun a ha b hb => ?_⟩
        rw [List.mem_singleton.mp hb]
        exact hfresh a ha
      · rcases List.mem_append.mp hmem with hmem | hmem
        · exact (h.closed node hmem).imp_right fun hp => hasPath_append.mpr (Or.inl hp)
        · rw [List.mem_singleton.mp hmem]
          rcases habove with rfl | habove
          · exact Or.inl rfl
          · exact Or.inr (hasPath_append.mpr (Or.inl habove))

/-- The loop over the parts of a path, from any folder of it. -/
theorem foldl_addFolder (parts : List String) : ∀ (front : List String) (nodes : List FolderNode),
    Parts (front ++ parts) → Forest nodes → (front = [] ∨ HasPath nodes (pathOf front)) →
      Forest (parts.foldl addFolder (nodes, pathOf front)).1
        ∧ ∀ p, HasPath (parts.foldl addFolder (nodes, pathOf front)).1 p ↔ HasPath nodes p
          ∨ ∃ below, below ≠ [] ∧ below <+: parts ∧ p = pathOf (front ++ below) := by
  induction parts with
  | nil =>
      intro front nodes _ h _
      refine ⟨h, fun p => ⟨Or.inl, ?_⟩⟩
      rintro (hp | ⟨below, hne, hpfx, -⟩)
      · exact hp
      · exact absurd (List.prefix_nil.mp hpfx) hne
  | cons part rest ih =>
      intro front nodes hparts h habove
      have hassoc : front ++ part :: rest = (front ++ [part]) ++ rest := by simp
      rw [hassoc] at hparts
      obtain ⟨nodes', hadd, hforest, hpaths⟩ :=
        addFolder_spec (fun p hp => hparts p (List.mem_append_left _ hp)) h habove
      rw [List.foldl_cons, hadd]
      obtain ⟨hforest', hrest⟩ :=
        ih (front ++ [part]) nodes' hparts hforest (Or.inr ((hpaths _).mpr (Or.inr rfl)))
      refine ⟨hforest', fun p => ?_⟩
      rw [hrest, hpaths]
      constructor
      -- the fronts of the longer path are its first part and the fronts behind it
      · rintro ((hp | rfl) | ⟨below, hne, hpfx, rfl⟩)
        · exact Or.inl hp
        · exact Or.inr ⟨[part], List.cons_ne_nil _ _, ⟨rest, rfl⟩, rfl⟩
        · refine Or.inr
            ⟨part :: below, List.cons_ne_nil _ _, List.cons_prefix_cons.mpr ⟨rfl, hpfx⟩, ?_⟩
          rw [List.append_assoc, List.singleton_append]
      · rintro (hp | ⟨below, hne, hpfx, rfl⟩)
        · exact Or.inl (Or.inl hp)
        · obtain ⟨first, below, rfl⟩ := List.exists_cons_of_ne_nil hne
          obtain ⟨rfl, htail⟩ := List.cons_prefix_cons.mp hpfx
          by_cases hbelow : below = []
          · exact Or.inl (Or.inr (by rw [hbelow]))
          · exact Or.inr ⟨below, hbelow, htail, by rw [List.append_assoc, List.singleton_append]⟩

/-! ## The folders of a key -/

/-- A nonempty prefix of the key, not the key itself, that ends with a slash. -/
def DirectoryPrefix (p key : String) : Prop :=
  p ≠ "" ∧ p ≠ key ∧ hasSuffix p "/" = true ∧ hasPrefix key p = true

/-- The directory prefixes of a path of good segments are its proper fronts. -/
theorem directoryPrefix_iff {key p : String} (h : GoodSegments key) : DirectoryPrefix p key ↔
    ∃ front back, front ≠ [] ∧ back ≠ [] ∧ segments key = front ++ back ∧ p = pathOf front := by
  constructor
  · rintro ⟨-, hne, hsfx, hpfx⟩
    obtain ⟨dir, hdir⟩ := hasSuffix_iff.mp hsfx
    obtain ⟨rest, hkey⟩ := exists_rest hpfx
    have hp : p = String.ofList dir ++ "/" := by
      rw [← String.toList_inj, String.toList_append, String.toList_ofList]
      exact hdir.symm
    have hsegs : segments key = segments (String.ofList dir) ++ segments rest := by
      rw [hkey, hp, segments_join]
    have hnonempty : ∀ s, segments s ≠ [] := by
      intro s
      rw [segments, Ne, List.map_eq_nil_iff]
      exact List.splitOn_ne_nil _ _
    refine ⟨segments (String.ofList dir), segments rest, hnonempty _, hnonempty _, hsegs, ?_⟩
    rw [pathOf, if_neg (hnonempty _), joinSegments_segments, hp]
  · rintro ⟨front, back, hfront, hback, hsegs, rfl⟩
    have hkey : key = joinSegments front ++ "/" ++ joinSegments back := by
      rw [← joinSegments_segments key, hsegs, joinSegments_append hfront hback]
    have hparts : Parts back := fun part hpart =>
      parts_of_good h part (hsegs ▸ List.mem_append_right _ hpart)
    have hrest : joinSegments back ≠ "" := ne_empty_of_good (hparts.good hback).2
    refine ⟨pathOf_cons_ne hfront, ?_, ?_, ?_⟩
    · rw [pathOf, if_neg hfront, hkey]
      intro heq
      exact hrest (String.append_eq_left_iff.mp heq.symm)
    · rw [pathOf, if_neg hfront, hasSuffix_iff, String.toList_append]
      exact List.suffix_append _ _
    · rw [pathOf, if_neg hfront, hkey, hasPrefix, List.isPrefixOf_iff_prefix]
      simp only [String.toList_append]
      exact List.prefix_append _ _

/-- The folder of a key: nothing, or its directory. -/
theorem folderPath_good {key : String} (h : GoodSegments key) :
    (folderPathFromObjectKey key = "" ∧ segments key = [key])
      ∨ ∃ dir base, GoodSegments dir ∧ '/' ∉ base.toList ∧ key = dir ++ "/" ++ base
        ∧ folderPathFromObjectKey key = dir ++ "/" := by
  obtain ⟨hfree, -, hkey⟩ := base_of_good h
  rcases hkey with hkey | ⟨dir, hdir, hkey⟩
  · have hslash : '/' ∉ key.toList := by
      rw [hkey]
      exact hfree
    refine Or.inl ⟨?_, segments_of_free hslash⟩
    rw [folderPathFromObjectKey, pathDir_free hslash]
    exact if_pos (Or.inl rfl)
  · refine Or.inr ⟨dir, pathBase key, hdir, hfree, hkey, ?_⟩
    have hpath : pathDir key = dir := by
      rw [hkey, pathDir_append _ hfree, pathClean_slash hdir]
    rw [folderPathFromObjectKey, hpath]
    exact dirPath_good hdir

/-- A slash in front of the key is cleaned away. -/
theorem folderPath_slash {key : String} (h : GoodSegments key) :
    folderPathFromObjectKey ("/" ++ key) = folderPathFromObjectKey key := by
  rcases folderPath_good h with ⟨hnone, hsegs⟩ | ⟨dir, base, hdir, hfree, rfl, hpath⟩
  · have hfree : '/' ∉ key.toList := by
      refine free_of_mem_segments (s := key) ?_
      rw [hsegs]
      exact List.mem_singleton_self _
    have hname : "/" ++ key = "" ++ "/" ++ key := by rw [String.empty_append]
    rw [hnone, folderPathFromObjectKey, hname, pathDir_append _ hfree]
    decide
  · have hparts := parts_of_good hdir
    have hne : segments dir ≠ [] := by
      rw [segments, Ne, List.map_eq_nil_iff]
      exact List.splitOn_ne_nil _ _
    have hname : "/" ++ (dir ++ "/" ++ base) = ("/" ++ dir) ++ "/" ++ base := by
      simp only [String.append_assoc]
    have hclean : pathClean ("/" ++ dir ++ "/") = "/" ++ dir := by
      have hrooted := pathClean_rooted hparts hne
      rwa [joinSegments_segments] at hrooted
    have hdots : ¬ ("/" ++ dir = "." ∨ "/" ++ dir = "/") := by
      rintro (hdot | hroot)
      · have := congrArg String.toList hdot
        simp at this
      · exact ne_empty_of_good hdir (String.append_eq_left_iff.mp hroot)
    rw [hpath, folderPathFromObjectKey, hname, pathDir_append _ hfree, hclean,
      if_neg hdots, trimPrefix_append]

/-- What one key adds; the key may have a slash in front. -/
theorem addKey_spec {nodes : List FolderNode} {key rest : String} (hrest : GoodSegments rest)
    (hkey : folderPathFromObjectKey key = folderPathFromObjectKey rest) (h : Forest nodes) :
    Forest (addKey nodes key)
      ∧ ∀ p, HasPath (addKey nodes key) p ↔ HasPath nodes p ∨ DirectoryPrefix p rest := by
  rw [addKey, hkey]
  -- a key at the top has no folder
  rcases folderPath_good hrest with ⟨hnone, hsegs⟩ | ⟨dir, base, hdir, hfree, hjoin, hpath⟩
  · rw [if_pos hnone]
    refine ⟨h, fun p => ⟨Or.inl, fun hp => hp.resolve_right fun hdirectory => ?_⟩⟩
    obtain ⟨front, back, hfront, hback, happend, -⟩ := (directoryPrefix_iff hrest).mp hdirectory
    rw [hsegs] at happend
    rcases List.append_eq_singleton_iff.mp happend.symm with ⟨hnil, -⟩ | ⟨-, hnil⟩
    · exact hfront hnil
    · exact hback hnil
  · have hsegs : segments rest = segments dir ++ [base] := by
      rw [hjoin, segments_join, segments_of_free hfree]
    have hslash : dir ++ "/" ≠ "" := by
      intro hempty
      have := congrArg String.toList hempty
      simp at this
    have hloop := foldl_addFolder (segments dir) [] nodes (parts_of_good hdir) h (Or.inl rfl)
    have hhierarchy : addFolderHierarchy nodes (dir ++ "/")
        = ((segments dir).foldl addFolder (nodes, pathOf [])).1 := by
      rw [addFolderHierarchy, trimSuffix_append]
      exact if_neg (ne_empty_of_good hdir)
    rw [hpath, if_neg hslash, hhierarchy]
    refine ⟨hloop.1, fun p => ?_⟩
    rw [hloop.2, directoryPrefix_iff hrest, hsegs]
    refine or_congr_right ?_
    constructor
    · rintro ⟨below, hne, ⟨back, hback⟩, rfl⟩
      refine ⟨below, back ++ [base], hne, ?_, ?_, rfl⟩
      · exact List.append_ne_nil_of_right_ne_nil _ (List.cons_ne_nil _ _)
      · rw [← List.append_assoc, hback]
    · rintro ⟨front, back, hfront, hback, happend, rfl⟩
      refine ⟨front, hfront, ?_, rfl⟩
      -- the front stops before the base
      obtain ⟨back, last, rfl⟩ : ∃ back' last, back = back' ++ [last] := by
        rcases List.eq_nil_or_concat back with hnil | ⟨back', last, hconcat⟩
        · exact absurd hnil hback
        · exact ⟨back', last, hconcat.trans List.concat_eq_append⟩
      rw [← List.append_assoc] at happend
      exact ⟨back, (List.append_inj_left' happend rfl).symm⟩

/-! ## The keys a bucket can have -/

/-- Good segments, or good segments behind a slash. -/
def Stored (key : String) : Prop := ∃ rest, GoodSegments rest ∧ (key = rest ∨ key = "/" ++ rest)

/-- The key of an upload is good and no marker. -/
theorem stored_of_user {key : String} (h : validateUserObjectKey key = .ok ()) : Stored key :=
  ⟨key, (validateUserObjectKey_iff.mp h).1.segs, Or.inl rfl⟩

/-- A name behind an accepted prefix, the bare slash included. -/
theorem stored_join {pfx name : String} (hpfx : validateFolderPrefix pfx = .ok ())
    (hname : GoodSegments name) : Stored (pfx ++ name) := by
  by_cases hroot : pfx = "/"
  · exact ⟨name, hname, Or.inr (by rw [hroot])⟩
  · rcases (folder_of_validateFolderPrefix hpfx hroot).shape with rfl | ⟨dir, rfl, hdir⟩
    · exact ⟨name, hname, Or.inl String.empty_append⟩
    · exact ⟨_, goodSegments_join.mpr ⟨hdir, hname⟩, Or.inl rfl⟩

/-- Every key a request writes is of one of the two kinds. -/
theorem stored_of_writes {request : Request} {key : String} (h : Writes request key) :
    Stored key := by
  cases request with
  | upload input staged now => exact stored_of_user h.2
  | uploadBatch input stagedBlobs now => exact stored_of_user h
  | publishSite input items stagedBlobs now => exact stored_of_user h
  | createFolder input staged now =>
      obtain ⟨rfl, hpfx, hname⟩ := h
      obtain ⟨-, -, hfree, hbad⟩ := folderName_ok hname
      have hgood : GoodSegments (input.name ++ "/" ++ folderMarkerFilename) := by
        refine goodSegments_join.mpr ⟨?_, by decide⟩
        rw [GoodSegments, segments_of_free hfree, List.all_cons, hbad]
        rfl
      have hkey :
          createFolderKey input = input.pfx ++ (input.name ++ "/" ++ folderMarkerFilename) := by
        simp only [createFolderKey, String.append_assoc]
      rw [hkey]
      exact stored_join hpfx hgood
  | publishFile input filename contentType staged now =>
      obtain ⟨parentPrefix, fileName, hpfx, hname, rfl⟩ := h
      have hfile := validateUserObjectKey_iff.mp (normalizePublishFileName_ok hname)
      exact stored_join (normalizePublishParentPrefix_ok hpfx) hfile.1.segs
  | _ => exact h.elim

/-- The invariant: object rows, and the rows a restore would bring back. -/
structure KeysStored (c : Tables k) : Prop where
  objects : ∀ o ∈ c.objects.rows, Stored o.objectKey
  recycled : ∀ r ∈ c.recycleBin.rows, shouldSkipRecycleBinRestoreItem r = false →
    Stored r.objectKey

/-- **Every stored key** of a reachable state is of one of the two kinds. -/
theorem keysStored_of_reachable (h : StepSystem.Reachable (requestSystem k) c) : KeysStored c := by
  refine h.invariant (I := KeysStored) ?_ ?_
  · rintro s rfl
    exact ⟨nofun, nofun⟩
  · rintro s request t - hs ⟨-, hok | rfl⟩
    · obtain ⟨hobjects, hrecycled⟩ := (request_derives hok).keys hs.objects hs.recycled
        fun _ hkey => stored_of_writes hkey
      exact ⟨hobjects, hrecycled⟩
    · exact hs

/-! ## Every bucket -/

/-- **The loop over the keys**: the nodes stay a forest, and their paths are the directory
    prefixes seen so far. By induction on the keys. -/
theorem folderNodes_spec {keys : List String} (h : ∀ key ∈ keys, Stored key)
    (nodes : List FolderNode) (hnodes : Forest nodes) :
    Forest (keys.foldl addKey nodes)
      ∧ ((∀ key ∈ keys, hasPrefix key "/" = false) →
        ∀ p, HasPath (keys.foldl addKey nodes) p
          ↔ HasPath nodes p ∨ ∃ key ∈ keys, DirectoryPrefix p key) := by
  induction keys generalizing nodes with
  | nil => exact ⟨hnodes, fun _ p => by simp⟩
  | cons key keys ih =>
      obtain ⟨hkey, hkeys⟩ := List.forall_mem_cons.mp h
      obtain ⟨rest, hrest, heq⟩ := hkey
      have hpath : folderPathFromObjectKey key = folderPathFromObjectKey rest := by
        rcases heq with rfl | rfl
        · rfl
        · exact folderPath_slash hrest
      obtain ⟨hforest, hpaths⟩ := addKey_spec hrest hpath hnodes
      obtain ⟨hforest', hexact⟩ := ih hkeys (addKey nodes key) hforest
      rw [List.foldl_cons]
      refine ⟨hforest', fun hplain p => ?_⟩
      obtain ⟨hslash, hplain⟩ := List.forall_mem_cons.mp hplain
      have hown : key = rest := by
        refine heq.resolve_right ?_
        rintro rfl
        refine Bool.false_ne_true (hslash.symm.trans ?_)
        rw [hasPrefix, String.toList_append]
        exact List.isPrefixOf_iff_prefix.mpr (List.prefix_append _ _)
      rw [hexact hplain, hpaths, hown, or_assoc]
      simp only [List.mem_cons, exists_eq_or_imp]

/-- What the listing promises of the keys. -/
structure Exact (keys : List String) (items : List FolderNode) : Prop where
  paths : ∀ p, HasPath items p ↔ ∃ key ∈ keys, DirectoryPrefix p key
  sorted : items.Pairwise fun a b => a.path < b.path
  shape : ∀ node ∈ items, node.path = node.parentPath ++ node.name ++ "/" ∧ '/' ∉ node.name.toList
  closed : ∀ node ∈ items, node.parentPath = "" ∨ HasPath items node.parentPath

/-- Sorting keeps the forest, and equal paths there are none. -/
theorem Forest.sorted {nodes : List FolderNode} (h : Forest nodes) :
    (nodes.mergeSort fun a b => decide (a.path ≤ b.path)).Pairwise fun a b => a.path < b.path := by
  have htrans : ∀ a b d : FolderNode, decide (a.path ≤ b.path) = true →
      decide (b.path ≤ d.path) = true → decide (a.path ≤ d.path) = true := by
    intro a b d hab hbd
    exact decide_eq_true (le_trans (of_decide_eq_true hab) (of_decide_eq_true hbd))
  have htotal : ∀ a b : FolderNode,
      (decide (a.path ≤ b.path) || decide (b.path ≤ a.path)) = true := by
    intro a b
    simpa using le_total a.path b.path
  have hle := List.pairwise_mergeSort htrans htotal nodes
  have hne : (nodes.mergeSort fun a b => decide (a.path ≤ b.path)).Pairwise
      fun a b => a.path ≠ b.path :=
    (List.mergeSort_perm nodes _).symm.pairwise h.distinct fun h => h.symm
  exact (hle.and hne).imp fun hp => lt_of_le_of_ne (of_decide_eq_true hp.1) hp.2

theorem hasPath_mergeSort {nodes : List FolderNode} {p : String} :
    HasPath (nodes.mergeSort fun a b => decide (a.path ≤ b.path)) p ↔ HasPath nodes p := by
  constructor
  · rintro ⟨node, hnode, hp⟩
    exact ⟨node, List.mem_mergeSort.mp hnode, hp⟩
  · rintro ⟨node, hnode, hp⟩
    exact ⟨node, List.mem_mergeSort.mpr hnode, hp⟩

/-- No folder is listed under the bare slash. -/
theorem Forest.no_slash {nodes : List FolderNode} (h : Forest nodes) : ¬ HasPath nodes "/" := by
  rintro ⟨node, hnode, hpath⟩
  obtain ⟨front, name, hparts, rfl⟩ := h.made node hnode
  have hne : front ++ [name] ≠ [] := List.append_ne_nil_of_right_ne_nil _ (List.cons_ne_nil _ _)
  have hjoin : joinSegments (front ++ [name]) ++ "/" = "/" := by
    rwa [nodeOf, pathOf, if_neg hne] at hpath
  exact ne_empty_of_good (hparts.good hne).2 (String.append_eq_right_iff.mp hjoin)

/-- **`ListFolders` is closed and exact** on keys of good segments, and on no others that
    a bucket can have. -/
theorem folderNodes_exact {keys : List String} (h : ∀ key ∈ keys, Stored key) :
    Exact keys (folderNodes keys) ↔ ∀ key ∈ keys, hasPrefix key "/" = false := by
  have hempty : Forest [] := ⟨nofun, .nil, nofun⟩
  obtain ⟨hforest, hexact⟩ := folderNodes_spec h [] hempty
  constructor
  · intro hall key hkey
    by_contra hslash
    obtain ⟨rest, hrest, heq⟩ := h key hkey
    have heq : key = "/" ++ rest := by
      refine heq.resolve_left ?_
      rintro rfl
      exact hslash (hasPrefix_slash_of_good hrest)
    -- the slash itself is a directory prefix of the key
    have hroot : DirectoryPrefix "/" key := by
      refine ⟨by decide, ?_, by decide, Bool.not_eq_false _ ▸ hslash⟩
      rw [heq]
      intro hbare
      exact ne_empty_of_good hrest (String.append_eq_left_iff.mp hbare.symm)
    exact hforest.no_slash (hasPath_mergeSort.mp ((hall.paths "/").mpr ⟨key, hkey, hroot⟩))
  · intro hplain
    refine ⟨fun p => ?_, hforest.sorted, fun node hnode => ?_, fun node hnode => ?_⟩
    · rw [folderNodes, hasPath_mergeSort, hexact hplain]
      exact ⟨fun hp => hp.resolve_left nofun, Or.inr⟩
    · obtain ⟨front, name, hparts, rfl⟩ := hforest.made node (List.mem_mergeSort.mp hnode)
      refine ⟨?_, (hparts name (List.mem_append_right _ (List.mem_singleton_self _))).1⟩
      rw [nodeOf, pathOf_concat, String.append_assoc]
    · exact (hforest.closed node (List.mem_mergeSort.mp hnode)).imp_right hasPath_mergeSort.mpr

/-- The keys of a bucket are stored keys. -/
theorem listActiveKeys_stored (h : StepSystem.Reachable (requestSystem k) c) (bucketName : String) :
    ∀ key ∈ listActiveKeys c bucketName, Stored key := by
  intro key hkey
  obtain ⟨o, ho, rfl⟩ := List.mem_map.mp hkey
  exact (keysStored_of_reachable h).objects o (Table.mem_select.mp (List.mem_mergeSort.mp ho)).1

/-- **Every bucket of every reachable state**: the listing is exact and closed if and
    only if no key of the bucket starts with a slash. -/
theorem list_folders_exact (h : StepSystem.Reachable (requestSystem k) c) {bucketName : String}
    {items : List FolderNode} (hlist : listFolders c bucketName = .ok items) :
    Exact (listActiveKeys c bucketName) items
      ↔ ∀ key ∈ listActiveKeys c bucketName, hasPrefix key "/" = false := by
  obtain ⟨_, -, hlist⟩ := bind_eq_ok.mp hlist
  obtain ⟨_, -, hlist⟩ := bind_eq_ok.mp hlist
  rw [← pure_eq_ok.mp hlist]
  exact folderNodes_exact (listActiveKeys_stored h bucketName)

/-- The keys of a bucket whose rows are already in order. -/
theorem listActiveKeys_eq {bucketName : String} {rows : List Object}
    (hrows : (c.objects.select fun o => k.eq o.bucketName bucketName) = rows)
    (hsorted : rows.Pairwise fun a b => k.le a.objectKey b.objectKey = true) :
    listActiveKeys c bucketName = rows.map (·.objectKey) := by
  rw [listActiveKeys, hrows, List.mergeSort_of_pairwise hsorted]

/-- For an existing bucket the answer is the nodes of its keys. -/
theorem listFolders_eq {bucketName : String} {keys : List String}
    (hbucket : validateBucketName bucketName = .ok ()) (hexists : bucketExists c bucketName = true)
    (hkeys : listActiveKeys c bucketName = keys) :
    listFolders c bucketName = .ok (folderNodes keys) := by
  refine bind_eq_ok.mpr ⟨(), hbucket, bind_eq_ok.mpr ⟨(), ensure_eq_ok.mpr hexists, ?_⟩⟩
  rw [hkeys]
  rfl

/-- The keys of `docsTree` in their order. -/
def docsKeys : List String :=
  ["docs/.light-oss-folder", "docs/a.txt", "docs/sub/b.txt", "other/c.txt"]

/-- Its folders: `docs`, the one inside it, and the one beside it. -/
def docsNodes : List FolderNode :=
  [⟨"docs/", "docs", ""⟩, ⟨"docs/sub/", "sub", "docs/"⟩, ⟨"other/", "other", ""⟩]

/-- Nested folders, one of them made by a marker. -/
theorem list_folders_exact_docs : listFolders docsTree "photos" = .ok docsNodes
    ∧ Exact (listActiveKeys docsTree "photos") docsNodes := by
  have hkeys : listActiveKeys docsTree "photos" = docsKeys := listActiveKeys_eq rfl (by decide)
  have hnodes : folderNodes docsKeys = docsNodes := by
    have hmap : docsKeys.foldl addKey [] = docsNodes := by decide +kernel
    rw [folderNodes, hmap]
    exact List.mergeSort_of_pairwise (by decide)
  have hlist := listFolders_eq (c := docsTree) (by decide) (by decide) hkeys
  rw [hnodes] at hlist
  refine ⟨hlist, (list_folders_exact (run_docsTree.reachable (.start rfl)) hlist).mpr ?_⟩
  rw [hkeys]
  decide

/-! ## A folder under the bare slash -/

/-- `normalizePublishParentPrefix` makes the bare slash of the parent prefix. -/
def slashSite : PublishSiteInput where
  bucketName := "photos"
  parentPrefix := "//"
  site := { bucketName := "photos", rootPrefix := "", enabled := true, indexDocument := "b.txt"
            errorDocument := "", spaFallback := false }
  domains := ["a.example"]

/-- A folder whose prefix is the bare slash, which `CreateFolder` accepts. -/
def slashFolder : CreateFolderInput := { bucketName := "photos", pfx := "/", name := "docs" }

/-- The file of a site published under that prefix. -/
def slashFile : StagedBlob :=
  { id := "f", storagePath := "objects/f", stagingPath := "", size := 0 }

/-- Its row: the key begins with a slash. -/
def slashFileRow : Object :=
  { stagedObject "photos" "/b.txt" "b.txt" "text/plain" .visibilityPublic slashFile with id := 1 }

/-- The marker's row, whose key begins with a slash as well. -/
def slashMarkerRow : Object :=
  { stagedObject "photos" "/docs/.light-oss-folder" folderMarkerFilename
      "application/x-directory" .visibilityPrivate stagedMarker with id := 2 }

/-- The bucket with the file. -/
def slashPublished : Tables Collation.binary :=
  { emptyPhotos with
    objects := ⟨[slashFileRow], List.pairwise_singleton _ _⟩
    sites := ⟨[{ slashSite.site with id := 1 }], List.pairwise_singleton _ _⟩
    siteDomains := ⟨[{ id := 1, siteID := 1, domain := "a.example" }], List.pairwise_singleton _ _⟩
    nextObjectID := 2
    nextSiteID := 2
    nextDomainID := 2 }

/-- The bucket with the file and the folder. -/
def slashListed : Tables Collation.binary :=
  { slashPublished with
    objects := ⟨[slashFileRow, slashMarkerRow], List.pairwise_pair.mpr (by decide)⟩
    nextObjectID := 3 }

/-- Both requests succeed, so the tables are reachable. -/
theorem run_slashListed : StepSystem.Run (requestSystem Collation.binary) {}
    [createPhotos, .publishFile slashSite "b.txt" "text/plain" slashFile 0,
      .createFolder slashFolder stagedMarker 0] slashListed := by
  have hbucket : validateBucketName "photos" = .ok () := ensure_eq_ok.mpr (by decide)
  refine .cons (t := emptyPhotos) ⟨nofun, Or.inl rfl⟩ ?_
  refine .cons (t := slashPublished) ⟨?_, Or.inl ?_⟩ (.cons ⟨?_, Or.inl ?_⟩ (.nil _))
  · intro staged hmem
    rw [List.mem_singleton.mp hmem]
    decide
  · have hfile : publishSiteFileMetadata (stagedObject "photos" "/b.txt" "b.txt" "text/plain"
        .visibilityPublic slashFile) slashSite.site slashSite.domains 0 emptyPhotos
        = .ok (slashPublished, []) := rfl
    refine bind_eq_ok.mpr ⟨(), ensure_eq_ok.mpr (List.cons_ne_nil _ _), ?_⟩
    refine bind_eq_ok.mpr ⟨"/", by decide, bind_eq_ok.mpr ⟨"b.txt", by decide, ?_⟩⟩
    refine bind_eq_ok.mpr ⟨(), hbucket, bind_eq_ok.mpr ⟨(), ensure_eq_ok.mpr (by decide), ?_⟩⟩
    exact bind_eq_ok.mpr ⟨(slashPublished, []), mapError_eq_ok.mpr hfile, rfl⟩
  · intro staged hmem
    rw [List.mem_singleton.mp hmem]
    decide
  · have hmarker : createInternalMetadata (stagedObject "photos" (createFolderKey slashFolder)
        folderMarkerFilename "application/x-directory" .visibilityPrivate stagedMarker) 0
        slashPublished = .ok (slashListed, []) := rfl
    refine bind_eq_ok.mpr
      ⟨(), hbucket, bind_eq_ok.mpr ⟨(), by decide, bind_eq_ok.mpr ⟨(), by decide, ?_⟩⟩⟩
    refine bind_eq_ok.mpr ⟨(), ensure_eq_ok.mpr (by decide), ?_⟩
    refine bind_eq_ok.mpr ⟨(), ensure_eq_ok.mpr (Or.inr (by decide)), ?_⟩
    refine bind_eq_ok.mpr ⟨(), ensure_eq_ok.mpr (by decide), ?_⟩
    exact bind_eq_ok.mpr ⟨(slashListed, []), hmarker, rfl⟩

/-- A file published under `//` and a folder created under `/`: the listing has the
    folder `docs/`, which no key of the bucket is in. -/
theorem list_folders_exact_slash :
    ∃ c : Tables Collation.binary, StepSystem.Run (requestSystem Collation.binary) {}
        [createPhotos, .publishFile slashSite "b.txt" "text/plain" slashFile 0,
          .createFolder slashFolder stagedMarker 0] c
      ∧ ∃ items, listFolders c "photos" = .ok items ∧ HasPath items "docs/"
        ∧ (∀ key ∈ listActiveKeys c "photos", ¬ DirectoryPrefix "docs/" key)
        ∧ ¬ Exact (listActiveKeys c "photos") items := by
  have hsorted : [slashFileRow, slashMarkerRow].Pairwise fun a b =>
      Collation.binary.le a.objectKey b.objectKey = true := List.pairwise_pair.mpr (by decide)
  have hkeys : listActiveKeys slashListed "photos" = ["/b.txt", "/docs/.light-oss-folder"] :=
    listActiveKeys_eq rfl hsorted
  have hnodes : folderNodes ["/b.txt", "/docs/.light-oss-folder"] = [⟨"docs/", "docs", ""⟩] := by
    have hmap : ["/b.txt", "/docs/.light-oss-folder"].foldl addKey []
        = [⟨"docs/", "docs", ""⟩] := by decide
    rw [folderNodes, hmap, List.mergeSort_singleton]
  have hlist := listFolders_eq (c := slashListed) (by decide) (by decide) hkeys
  rw [hnodes] at hlist
  have hnone : ∀ key ∈ listActiveKeys slashListed "photos", ¬ DirectoryPrefix "docs/" key := by
    rw [hkeys]
    rintro key hkey ⟨-, -, -, hpfx⟩
    have hall : ∀ key ∈ ["/b.txt", "/docs/.light-oss-folder"], hasPrefix key "docs/" = false := by
      decide
    exact Bool.false_ne_true ((hall key hkey).symm.trans hpfx)
  have hdocs : HasPath [⟨"docs/", "docs", ""⟩] "docs/" := ⟨_, List.mem_singleton_self _, rfl⟩
  refine ⟨slashListed, run_slashListed, _, hlist, hdocs, hnone, fun hexact => ?_⟩
  obtain ⟨key, hkey, hprefix⟩ := (hexact.paths "docs/").mp hdocs
  exact hnone key hkey hprefix

end FolderTree
