import LightOss.FolderTree
import Mathlib.Data.List.Infix

/-! # Explorer prefix — the frontend's arithmetic on folder paths

    The explorer keeps the current folder as a prefix in the address bar, splits it
    into breadcrumbs, and cuts its last segment to go up.  On the paths that the
    backend lists this agrees with the backend's tree, unless the path begins with
    white space, which the frontend trims away.

    A path that does not is its own normal form (`normalize_clean`), and its crumbs are
    its ancestors (`crumbs_ancestors`), which are nodes of the tree; any other path gets
    shorter (`normalize_spaced`). -/

namespace ExplorerPrefix

open Trimming Validation ObjectKeys PathClean FolderTree

/-! ## `explorer.ts` -/

/-- What `String.prototype.trim` takes: white space and line terminators. -/
def jsSpace (c : Char) : Bool :=
  c.toNat ∈ [0x09, 0x0A, 0x0B, 0x0C, 0x0D, 0x20, 0xA0, 0x1680, 0x2000, 0x2001, 0x2002, 0x2003,
    0x2004, 0x2005, 0x2006, 0x2007, 0x2008, 0x2009, 0x200A, 0x2028, 0x2029, 0x202F, 0x205F,
    0x3000, 0xFEFF]

/-- `value.trim()`. -/
def jsTrim (value : String) : String := String.ofList (trim jsSpace jsSpace value.toList)

/-- `value.replace(/^\/+/, "").replace(/\/+$/, "")`. -/
def stripSlashes (value : String) : String :=
  String.ofList (trim (· == '/') (· == '/') value.toList)

/-- `value` may be `null` or `undefined`. -/
def normalizeExplorerPrefix (value : Option String) : String :=
  let trimmed := stripSlashes (jsTrim (value.getD ""))
  if trimmed = "" then "" else trimmed ++ "/"

/-- `normalized.split("/").filter(Boolean)`. -/
def splitSegments (normalized : String) : List String := (segments normalized).filter (· ≠ "")

/-- `ExplorerBreadcrumb`. -/
structure Breadcrumb where
  label : String
  pfx : String
  deriving DecidableEq

/-- The crumbs of the segments: each with the segments up to it. -/
def crumbs (parts : List String) : List Breadcrumb :=
  parts.zipIdx.map fun indexed =>
    { label := indexed.1, pfx := joinSegments (parts.take (indexed.2 + 1)) ++ "/" }

def getExplorerBreadcrumbs (pfx : String) : List Breadcrumb :=
  let normalized := normalizeExplorerPrefix (some pfx)
  if normalized = "" then [] else crumbs (splitSegments normalized)

def getParentExplorerPrefix (pfx : String) : String :=
  let normalized := normalizeExplorerPrefix (some pfx)
  if normalized = "" then ""
  else
    let parts := splitSegments normalized
    if parts.length ≤ 1 then "" else joinSegments parts.dropLast ++ "/"

/-! ## Prefixes of clean parts -/

/-- The path begins with a character that `trim` takes. -/
def Spaced (path : String) : Prop := path.toList.head?.any jsSpace = true

variable {front : List String}

theorem pathOf_chars (hne : front ≠ []) :
    (pathOf front).toList = (joinSegments front).toList ++ ['/'] := by
  rw [pathOf, if_neg hne, String.toList_append]
  rfl

/-- Only the slash at the end goes. -/
theorem stripSlashes_pathOf (h : Parts front) (hne : front ≠ []) :
    stripSlashes (pathOf front) = joinSegments front := by
  have hgood := (h.good hne).2
  obtain ⟨init, c, hchars, hc⟩ := getLast_of_good hgood
  have hroot := hasPrefix_slash_of_good hgood
  have hmid : trim (· == '/') (· == '/') ([] ++ ((joinSegments front).toList ++ ['/']))
      = (joinSegments front).toList := by
    refine trim_surrounded (List.forall_mem_nil _) (List.forall_mem_singleton.mpr rfl) ?_
      (fun d hd => ?_) fun d hd => ?_
    · rw [hchars]
      exact List.append_ne_nil_of_right_ne_nil _ (List.cons_ne_nil _ _)
    · -- a slash in front would be a prefix
      obtain ⟨rest, hlist⟩ := List.head?_eq_some_iff.mp hd
      refine beq_eq_false_iff_ne.mpr ?_
      rintro rfl
      rw [hasPrefix, hlist] at hroot
      cases hroot
    · rw [hchars, List.getLast?_concat] at hd
      cases hd
      exact beq_eq_false_iff_ne.mpr hc
  rw [List.nil_append] at hmid
  rw [stripSlashes, pathOf_chars hne, hmid, String.ofList_toList]

/-- A path that does not begin with white space is left as it is. -/
theorem normalize_clean (h : Parts front) (hne : front ≠ []) (hplain : ¬ Spaced (pathOf front)) :
    normalizeExplorerPrefix (some (pathOf front)) = pathOf front := by
  have htrim : jsTrim (pathOf front) = pathOf front := by
    rw [jsTrim, trim_of_ends, String.ofList_toList]
    · intro d hd
      rw [Spaced, Option.mem_def.mp hd] at hplain
      exact Bool.not_eq_true _ ▸ hplain
    · intro d hd
      rw [pathOf_chars hne, List.getLast?_concat] at hd
      cases hd
      decide
  have hjoin := ne_empty_of_good (h.good hne).2
  show (if stripSlashes (jsTrim (pathOf front)) = "" then ""
    else stripSlashes (jsTrim (pathOf front)) ++ "/") = _
  rw [htrim, stripSlashes_pathOf h hne, if_neg hjoin, pathOf, if_neg hne]

/-- A last character outside the class stays. -/
theorem dropWhile_concat {p : Char → Bool} {d : Char} (hd : p d = false) (s : List Char) :
    (s ++ [d]).dropWhile p = s.dropWhile p ++ [d] := by
  induction s with
  | nil => exact List.dropWhile_cons_of_neg (Bool.eq_false_iff.mp hd)
  | cons c rest ih =>
      rw [List.cons_append, List.dropWhile_cons, List.dropWhile_cons]
      split
      · exact ih
      · rfl

/-- Trimming a path that begins with white space takes a character and keeps the slash. -/
theorem jsTrim_spaced {path : String} {init : List Char} (hpath : path.toList = init ++ ['/'])
    (hspaced : Spaced path) :
    ∃ rest, (jsTrim path).toList = rest ++ ['/'] ∧ rest.length < init.length := by
  have hslash : jsSpace '/' = false := by decide
  rw [Spaced, hpath] at hspaced
  obtain ⟨c, tail, rfl⟩ : ∃ c tail, init = c :: tail := by
    refine List.exists_cons_of_ne_nil ?_
    rintro rfl
    exact Bool.false_ne_true (hslash.symm.trans hspaced)
  have hc : jsSpace c = true := hspaced
  have hdrop : (c :: tail ++ ['/']).dropWhile jsSpace = tail.dropWhile jsSpace ++ ['/'] := by
    rw [List.cons_append, List.dropWhile_cons_of_pos hc, dropWhile_concat hslash]
  refine ⟨tail.dropWhile jsSpace, ?_, ?_⟩
  · rw [jsTrim, String.toList_ofList, hpath, trim, hdrop, List.reverse_append,
      List.reverse_singleton, List.singleton_append,
      List.dropWhile_cons_of_neg (Bool.eq_false_iff.mp hslash), List.reverse_cons,
      List.reverse_reverse]
  · have hlength := (List.dropWhile_sublist (l := tail) jsSpace).length_le
    rw [List.length_cons]
    omega

/-- Of a text that ends with a slash at least that one is stripped. -/
theorem stripSlashes_shorter {value : String} {init : List Char}
    (hvalue : value.toList = init ++ ['/']) : (stripSlashes value).toList.length ≤ init.length := by
  obtain ⟨lead, trail, hsplit, -, -⟩ := trim_split (· == '/') (· == '/') value.toList
  have hlength := congrArg List.length hsplit
  rw [hvalue] at hlength
  simp only [List.length_append, List.length_singleton] at hlength
  rw [stripSlashes, String.toList_ofList]
  rcases List.eq_nil_or_concat trail with rfl | ⟨trail, d, rfl⟩
  · -- then what is left would end with the slash itself
    rcases List.eq_nil_or_concat (trim (· == '/') (· == '/') value.toList) with hnil | ⟨b, d, hb⟩
    · rw [hnil]
      exact Nat.zero_le _
    · rw [List.concat_eq_append] at hb
      have hd : (d == '/') = false := by
        refine trim_last (p := (· == '/')) (q := (· == '/')) (l := value.toList) ?_
        rw [hb]
        exact List.getLast?_concat
      rw [hb, List.append_nil, ← List.append_assoc, hvalue] at hsplit
      obtain ⟨-, hlast⟩ := List.append_inj' hsplit rfl
      rw [← (List.cons.inj hlast).1] at hd
      exact absurd hd (by decide)
  · rw [List.concat_eq_append, List.length_append, List.length_singleton] at hlength
    rw [hvalue]
    omega

/-- A path that does is shortened. -/
theorem normalize_spaced (hne : front ≠ []) (hspaced : Spaced (pathOf front)) :
    normalizeExplorerPrefix (some (pathOf front)) ≠ pathOf front := by
  intro heq
  obtain ⟨rest, htrim, hshorter⟩ := jsTrim_spaced (pathOf_chars hne) hspaced
  have hstrip := stripSlashes_shorter htrim
  have hdef : (if stripSlashes (jsTrim (pathOf front)) = "" then ""
    else stripSlashes (jsTrim (pathOf front)) ++ "/") = pathOf front := heq
  split at hdef
  · exact pathOf_cons_ne hne hdef.symm
  · have hlength := congrArg (List.length ∘ String.toList) hdef
    simp only [Function.comp_apply, pathOf_chars hne, String.toList_append,
      List.length_append] at hlength
    have hone : "/".toList.length = 1 := rfl
    have hone' : ['/'].length = 1 := rfl
    omega

/-! ## Breadcrumbs -/

/-- The folder paths a path begins with, itself included, from the outermost in. -/
def ancestors (path : String) : List String :=
  (path.toList.inits.filter fun t => t.getLast? == some '/').map String.ofList

/-- One more part is one more ancestor. -/
theorem ancestors_concat (front : List String) {name : String} (hfree : '/' ∉ name.toList) :
    ancestors (pathOf (front ++ [name]))
      = ancestors (pathOf front) ++ [pathOf (front ++ [name])] := by
  have hchars : (pathOf (front ++ [name])).toList
      = (pathOf front).toList ++ (name.toList ++ ['/']) := by
    rw [pathOf_concat, String.toList_append, String.toList_append]
    rfl
  have htail : (name.toList ++ ['/']).inits.tail
      = name.toList.inits.tail ++ [name.toList ++ ['/']] := by
    rw [List.inits_append]
    cases name.toList with
    | nil => rfl
    | cons c rest => rw [List.inits_cons]; rfl
  have hinner : (name.toList.inits.tail.map ((pathOf front).toList ++ ·)).filter
      (fun t => t.getLast? == some '/') = [] := by
    refine List.filter_eq_nil_iff.mpr fun t ht => ?_
    obtain ⟨part, hpart, rfl⟩ := List.mem_map.mp ht
    -- a nonempty part of the name ends in a character of it
    have hpfx : part <+: name.toList := (List.mem_inits _ _).mp (List.mem_of_mem_tail hpart)
    have hne : part ≠ [] := by
      rintro rfl
      cases hname : name.toList with
      | nil => rw [hname] at hpart; exact nomatch hpart
      | cons c rest =>
          rw [hname, List.inits_cons, List.tail_cons] at hpart
          obtain ⟨_, -, heq⟩ := List.mem_map.mp hpart
          exact nomatch heq
    rw [List.getLast?_append_of_ne_nil _ hne, List.getLast?_eq_getLast_of_ne_nil hne, beq_iff_eq,
      Option.some_inj]
    intro hslash
    exact hfree (hpfx.mem (hslash ▸ List.getLast_mem hne))
  rw [ancestors, hchars, List.inits_append, htail, List.map_append, List.filter_append,
    List.filter_append, hinner, List.nil_append, List.map_append, ancestors]
  congr 1
  rw [List.map_singleton, List.filter_cons_of_pos, List.filter_nil, List.map_singleton, ← hchars,
    String.ofList_toList]
  rw [← List.append_assoc, List.getLast?_concat]
  rfl

/-- One more part is one more crumb. -/
theorem crumbs_concat (front : List String) (name : String) :
    crumbs (front ++ [name]) = crumbs front ++ [⟨name, pathOf (front ++ [name])⟩] := by
  have hne : front ++ [name] ≠ [] := List.append_ne_nil_of_right_ne_nil _ (List.cons_ne_nil _ _)
  rw [crumbs, List.zipIdx_append, List.map_append, crumbs]
  congr 1
  · refine List.map_congr_left fun ⟨part, index⟩ hmem => ?_
    obtain ⟨-, hindex, -⟩ := List.mem_zipIdx hmem
    rw [List.take_append_of_le_length (by omega)]
  · have hall : (front ++ [name]).take (front.length + 1) = front ++ [name] :=
      List.take_of_length_le (by simp)
    rw [pathOf, if_neg hne]
    simp [hall]

/-- The breadcrumbs of a path are its ancestors in the backend's tree. -/
theorem crumbs_ancestors (h : Parts front) :
    (crumbs front).map (·.pfx) = ancestors (pathOf front) := by
  induction front using List.reverseRecOn with
  | nil => rfl
  | append_singleton init name ih =>
      have hname := h name (List.mem_append_right _ (List.mem_singleton_self _))
      have hinit : Parts init := fun part hpart => h part (List.mem_append_left _ hpart)
      rw [crumbs_concat, List.map_append, ih hinit, ancestors_concat init hname.1]
      rfl

/-- Every crumb is a folder on the way. -/
theorem mem_crumbs {crumb : Breadcrumb} (h : crumb ∈ crumbs front) :
    ∃ init name, init ++ [name] <+: front ∧ crumb = ⟨name, pathOf (init ++ [name])⟩ := by
  induction front using List.reverseRecOn with
  | nil => exact nomatch h
  | append_singleton outer last ih =>
      rw [crumbs_concat] at h
      rcases List.mem_append.mp h with h | h
      · obtain ⟨init, name, hpfx, rfl⟩ := ih h
        exact ⟨init, name, hpfx.trans (List.prefix_append _ _), rfl⟩
      · exact ⟨outer, last, List.prefix_rfl, List.mem_singleton.mp h⟩

/-- The segments of a folder path. -/
theorem splitSegments_pathOf (h : Parts front) (hne : front ≠ []) :
    splitSegments (pathOf front) = front := by
  have hsegs : segments (joinSegments front ++ "/") = front ++ [""] := by
    have hjoin := segments_join (joinSegments front) ""
    rw [String.append_empty, (h.good hne).1] at hjoin
    exact hjoin
  have hkeep : front.filter (· ≠ "") = front := by
    refine List.filter_eq_self.mpr fun part hpart => ?_
    refine decide_eq_true ?_
    rintro rfl
    exact Bool.false_ne_true ((h "" hpart).2.symm.trans rfl)
  rw [splitSegments, pathOf, if_neg hne, hsegs, List.filter_append, hkeep]
  exact List.append_nil _

/-! ## Agreement -/

/-- The frontend and the backend mean the same folders by the path `path`. -/
structure Agrees (key path : String) : Prop where
  normalized : normalizeExplorerPrefix (some path) = path
  chain : (getExplorerBreadcrumbs path).map (·.pfx) = ancestors path
  last : ((getExplorerBreadcrumbs path).map (·.pfx)).getLast? = some path
  parent : getParentExplorerPrefix path
    = ((getExplorerBreadcrumbs path).map (·.pfx)).dropLast.getLast?.getD ""
  listed : ∀ crumb ∈ getExplorerBreadcrumbs path,
    ∃ node ∈ folderNodes [key], node.path = crumb.pfx ∧ node.name = crumb.label
  listedParent : ∀ node ∈ folderNodes [key], node.path = path →
    getParentExplorerPrefix path = node.parentPath

/-- The folders listed for a key are its proper fronts. -/
theorem hasPath_iff {key : String} (h : GoodSegments key) (path : String) :
    HasPath (folderNodes [key]) path ↔ ∃ front back, front ≠ [] ∧ back ≠ []
      ∧ segments key = front ++ back ∧ path = pathOf front := by
  have hempty : Forest [] := ⟨List.forall_mem_nil _, .nil, List.forall_mem_nil _⟩
  obtain ⟨-, hpaths⟩ := addKey_spec h rfl hempty
  rw [folderNodes, List.foldl_cons, List.foldl_nil, hasPath_mergeSort, hpaths,
    directoryPrefix_iff h]
  have hnone : ¬ HasPath [] path := by
    rintro ⟨node, hnode, -⟩
    exact List.not_mem_nil hnode
  exact ⟨fun hp => hp.resolve_left hnone, Or.inr⟩

/-- A listed node is the node of its parts. -/
theorem node_of_path {key : String} (h : GoodSegments key) {node : FolderNode}
    (hnode : node ∈ folderNodes [key]) {init : List String} {name : String}
    (hparts : Parts (init ++ [name])) (hpath : node.path = pathOf (init ++ [name])) :
    node = nodeOf init name := by
  have hempty : Forest [] := ⟨List.forall_mem_nil _, .nil, List.forall_mem_nil _⟩
  obtain ⟨hforest, -⟩ := addKey_spec h rfl hempty
  rw [folderNodes, List.foldl_cons, List.foldl_nil] at hnode
  obtain ⟨init', name', hparts', rfl⟩ := hforest.made node (List.mem_mergeSort.mp hnode)
  have hsame := pathOf_injective hparts' hparts hpath
  obtain ⟨rfl, hname⟩ := List.append_inj' hsame rfl
  rw [(List.cons.inj hname).1]

/-- **The frontend's prefix arithmetic agrees with the backend's paths** exactly on the
    paths that do not begin with white space. -/
theorem explorer_prefix_agrees {key path : String} (hkey : validateObjectKey key = .ok ())
    (hpath : HasPath (folderNodes [key]) path) : Agrees key path ↔ ¬ Spaced path := by
  have hgood := (validateObjectKey_iff.mp hkey).segs
  obtain ⟨front, back, hne, hback, hsegs, rfl⟩ := (hasPath_iff hgood path).mp hpath
  have hparts : Parts front := fun part hpart =>
    parts_of_good hgood part (hsegs ▸ List.mem_append_left _ hpart)
  constructor
  · exact fun h hspaced => normalize_spaced hne hspaced h.normalized
  intro hplain
  have hnormal := normalize_clean hparts hne hplain
  have hcrumbs : getExplorerBreadcrumbs (pathOf front) = crumbs front := by
    rw [getExplorerBreadcrumbs, hnormal, splitSegments_pathOf hparts hne]
    exact if_neg (pathOf_cons_ne hne)
  obtain ⟨init, name, rfl⟩ : ∃ init name, front = init ++ [name] := by
    rcases List.eq_nil_or_concat front with hnil | ⟨init, name, hconcat⟩
    · exact absurd hnil hne
    · exact ⟨init, name, hconcat.trans List.concat_eq_append⟩
  have hinit : Parts init := fun part hpart => hparts part (List.mem_append_left _ hpart)
  have hname := hparts name (List.mem_append_right _ (List.mem_singleton_self _))
  have hchain := crumbs_ancestors hparts
  -- going up cuts the last part, and a folder at the top goes to the root
  have hparent : getParentExplorerPrefix (pathOf (init ++ [name])) = pathOf init := by
    rw [getParentExplorerPrefix, hnormal, splitSegments_pathOf hparts hne]
    dsimp only
    rw [if_neg (pathOf_cons_ne hne), List.length_append, List.dropLast_concat, pathOf]
    split
    · next hshort =>
        have hnil : init = [] := List.length_eq_zero_iff.mp (by simpa using hshort)
        rw [if_pos hnil]
    · next hlong =>
        have hnil : init ≠ [] := by
          rintro rfl
          exact hlong (Nat.le_refl _)
        rw [if_neg hnil]
  refine ⟨hnormal, by rw [hcrumbs, hchain], ?_, ?_, ?_, ?_⟩
  · rw [hcrumbs, hchain, ancestors_concat init hname.1, List.getLast?_concat]
  · rw [hparent, hcrumbs, hchain, ancestors_concat init hname.1, List.dropLast_concat]
    rcases List.eq_nil_or_concat init with rfl | ⟨outer, last, rfl⟩
    · rfl
    · rw [List.concat_eq_append] at hinit ⊢
      have hlast := hinit last (List.mem_append_right _ (List.mem_singleton_self _))
      rw [ancestors_concat outer hlast.1, List.getLast?_concat]
      rfl
  · intro crumb hcrumb
    rw [hcrumbs] at hcrumb
    obtain ⟨outer, label, ⟨rest, hrest⟩, rfl⟩ := mem_crumbs hcrumb
    have hfront : outer ++ [label] ≠ [] :=
      List.append_ne_nil_of_right_ne_nil _ (List.cons_ne_nil _ _)
    have houter : Parts (outer ++ [label]) := fun part hpart =>
      hparts part (hrest ▸ List.mem_append_left _ hpart)
    obtain ⟨node, hnode, hnodePath⟩ := (hasPath_iff hgood (pathOf (outer ++ [label]))).mpr
      ⟨outer ++ [label], rest ++ back, hfront, List.append_ne_nil_of_right_ne_nil _ hback,
        by rw [hsegs, ← hrest, List.append_assoc], rfl⟩
    refine ⟨node, hnode, hnodePath, ?_⟩
    rw [node_of_path hgood hnode houter hnodePath]
    rfl
  · intro node hnode hnodePath
    rw [hparent, node_of_path hgood hnode hparts hnodePath]
    rfl

/-- A folder in a folder. -/
theorem explorer_prefix_agrees_docs : Agrees "docs/img/a.png" "docs/img/" := by
  have hkey : validateObjectKey "docs/img/a.png" = .ok () := by decide
  have hpath : HasPath (folderNodes ["docs/img/a.png"]) "docs/img/" :=
    (hasPath_iff (by decide) _).mpr ⟨["docs", "img"], ["a.png"], by decide, by decide, by decide,
      by decide⟩
  refine (explorer_prefix_agrees hkey hpath).mpr ?_
  rw [Spaced]
  decide

/-- A key in a folder whose name starts with a space: the frontend goes to the folder
    without it. -/
theorem explorer_prefix_agrees_spaced :
    validateObjectKey " docs/a.txt" = .ok () ∧ HasPath (folderNodes [" docs/a.txt"]) " docs/"
      ∧ normalizeExplorerPrefix (some " docs/") = "docs/" ∧ ¬ Agrees " docs/a.txt" " docs/" := by
  have hnormal : normalizeExplorerPrefix (some " docs/") = "docs/" := by decide
  have hpath : HasPath (folderNodes [" docs/a.txt"]) " docs/" :=
    (hasPath_iff (by decide) _).mpr ⟨[" docs"], ["a.txt"], by decide, by decide,
      by decide, by decide⟩
  refine ⟨by decide, hpath, hnormal, fun h => ?_⟩
  exact absurd (hnormal.symm.trans h.normalized) (by decide)

end ExplorerPrefix
