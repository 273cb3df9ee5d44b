import LightOss.LedgerRows

/-! # Validation — paths the services accept

    The string functions of the Go library the services use, on the characters of a
    string, and the checks of `validation.go` that guard the folder operations. -/

namespace Validation

open Fallible LedgerRows

/-! ## `strings` and `path` -/

/-- `unicode.IsSpace`. -/
def isSpace (c : Char) : Bool :=
  c.toNat ∈ [0x09, 0x0A, 0x0B, 0x0C, 0x0D, 0x20, 0x85, 0xA0, 0x1680, 0x2000, 0x2001, 0x2002,
    0x2003, 0x2004, 0x2005, 0x2006, 0x2007, 0x2008, 0x2009, 0x200A, 0x2028, 0x2029, 0x202F,
    0x205F, 0x3000]

/-- `strings.TrimSpace`. -/
def trimSpace (s : String) : String :=
  String.ofList ((s.toList.dropWhile isSpace).reverse.dropWhile isSpace).reverse

/-- `strings.HasPrefix`. -/
def hasPrefix (s pfx : String) : Bool := pfx.toList.isPrefixOf s.toList

theorem hasPrefix_iff {s pfx : String} : hasPrefix s pfx = true ↔ pfx.toList <+: s.toList :=
  List.isPrefixOf_iff_prefix

/-- `strings.HasSuffix`. -/
def hasSuffix (s sfx : String) : Bool := sfx.toList.isSuffixOf s.toList

/-- `strings.TrimSuffix`. -/
def trimSuffix (s sfx : String) : String :=
  if hasSuffix s sfx then String.ofList (s.toList.take (s.toList.length - sfx.toList.length)) else s

/-- `strings.Split(s, "/")`. -/
def segments (s : String) : List String := (s.toList.splitOn '/').map String.ofList

theorem segments_ne_nil (s : String) : segments s ≠ [] := by
  rw [segments, ne_eq, List.map_eq_nil_iff]
  exact List.splitOn_ne_nil _ _

/-- `strings.Join(segments, "/")`. -/
def joinSegments (parts : List String) : String :=
  String.ofList (List.intercalate ['/'] (parts.map String.toList))

/-- `path.Base`: the last element, without trailing slashes. -/
def pathBase (p : String) : String :=
  if p = "" then "."
  else
    let reversed := p.toList.reverse.dropWhile (· == '/')
    if reversed = [] then "/" else String.ofList (reversed.takeWhile (· != '/')).reverse

/-- `strings.Contains`. -/
def contains (s sub : String) : Bool := s.toList.tails.any fun t => sub.toList.isPrefixOf t

/-- `strings.ContainsAny`. -/
def containsAny (s chars : String) : Bool := chars.toList.any fun c => s.toList.contains c

/-- `strings.ReplaceAll(s, "\\", "/")`. -/
def slashed (s : String) : String :=
  String.ofList (s.toList.map fun c => if c = '\\' then '/' else c)

/-- `strings.TrimPrefix`. -/
def trimPrefix (s pfx : String) : String :=
  if hasPrefix s pfx then String.ofList (s.toList.drop pfx.toList.length) else s

/-- The elements `path.Clean` keeps of a rooted path. -/
def cleanElements (parts : List String) : List String :=
  parts.foldl (fun kept part =>
    if part = "" ∨ part = "." then kept
    else if part = ".." then kept.dropLast
    else kept ++ [part]) []

/-- `path.Clean("/" + p)`. -/
def cleanRooted (p : String) : String := "/" ++ joinSegments (cleanElements (segments p))

/-- The name of the object that stands for an empty folder. -/
def folderMarkerFilename : String := ".light-oss-folder"

/-- The key is that of a marker, in whichever folder. -/
def isFolderMarkerKey (key : String) : Bool := pathBase key == folderMarkerFilename

/-! ## The checks -/

/-- `[a-z0-9]`. -/
def lowerAlnum (c : Char) : Bool := ('a' ≤ c && c ≤ 'z') || ('0' ≤ c && c ≤ '9')

/-- `^[a-z0-9][a-z0-9.-]{1,61}[a-z0-9]$`. -/
def bucketNamePattern (name : String) : Bool :=
  match name.toList with
  | [] => false
  | first :: rest =>
      lowerAlnum first && (rest.getLast?.any lowerAlnum)
        && (2 ≤ rest.length && rest.length ≤ 62)
        && rest.all fun c => lowerAlnum c || c == '.' || c == '-'

def validateBucketName (name : String) : Except Err Unit :=
  ensure (bucketNamePattern name = true)
    (.app 400 "invalid_bucket_name"
      "bucket name must match lowercase letters, digits, dot or hyphen")

/-- `segment == "" || segment == "." || segment == ".."`. -/
def badSegment (segment : String) : Bool := segment == "" || segment == "." || segment == ".."

/-- The error of the checks on keys. -/
def invalidObjectKey (message : String) : Err := .app 400 "invalid_object_key" message

/-- `ValidateObjectKey`: the length is counted in bytes, whatever the message says. -/
def validateObjectKey (key : String) : Except Err Unit := do
  ensure (¬ (trimSpace key = "" ∨ 512 < key.utf8ByteSize))
    (invalidObjectKey "object key is required and must be at most 512 characters")
  ensure (¬ (contains key "\x00" = true ∨ contains key "\\" = true))
    (invalidObjectKey "object key contains invalid characters")
  let cleaned := cleanRooted key
  ensure (¬ (cleaned = "/" ∨ contains cleaned ".." = true))
    (invalidObjectKey "object key must not contain path traversal")
  ensure ((segments key).all (fun s => !badSegment s) = true)
    (invalidObjectKey "object key contains invalid path segments")

/-- `ValidateUserObjectKey`: a user may not write a marker. -/
def validateUserObjectKey (key : String) : Except Err Unit := do
  validateObjectKey key
  ensure (isFolderMarkerKey key = false) (invalidObjectKey "object key uses a reserved file name")

def validateUploadRelativePath (relativePath : String) : Except Err Unit := do
  ensure (trimSpace relativePath ≠ "") (invalidObjectKey "relative path is required")
  ensure (hasPrefix relativePath "/" = false)
    (invalidObjectKey "relative path must not start with /")
  validateUserObjectKey relativePath

def validatePrefix (pfx : String) : Except Err Unit :=
  ensure (¬ (512 < pfx.utf8ByteSize ∨ '\x00' ∈ pfx.toList ∨ '\\' ∈ pfx.toList))
    (.app 400 "invalid_prefix" "prefix is invalid")

/-- `ValidateFolderPrefix`: the bare slash gets through, since nothing is left of it to
    check. -/
def validateFolderPrefix (pfx : String) : Except Err Unit := do
  validatePrefix pfx
  if pfx = "" then .ok ()
  else do
    ensure (hasSuffix pfx "/" = true)
      (.app 400 "invalid_prefix" "folder prefix must end with /")
    let trimmed := trimSuffix pfx "/"
    ensure (trimmed = "" ∨ (segments trimmed).all (fun s => !badSegment s) = true)
      (.app 400 "invalid_prefix" "folder prefix contains invalid path segments")

/-- `ValidateFolderName`: two dots inside a name get through here. -/
def validateFolderName (name : String) : Except Err Unit := do
  let trimmed := trimSpace name
  ensure (¬ (trimmed = "" ∨ 255 < trimmed.utf8ByteSize))
    (.app 400 "invalid_folder_name"
      "folder name is required and must be at most 255 characters")
  ensure (¬ (contains trimmed "\x00" = true ∨ contains trimmed "\\" = true
      ∨ contains trimmed "/" = true))
    (.app 400 "invalid_folder_name" "folder name contains invalid characters")
  ensure (¬ (trimmed = "." ∨ trimmed = ".." ∨ trimmed = folderMarkerFilename))
    (.app 400 "invalid_folder_name" "folder name is invalid")

def validateFolderPath (folderPath : String) : Except Err Unit := do
  ensure (trimSpace folderPath ≠ "") (.app 400 "invalid_folder_path" "folder path is required")
  validateFolderPrefix folderPath

/-! ## Facts about the string functions -/

theorem hasSuffix_iff {s sfx : String} : hasSuffix s sfx = true ↔ sfx.toList <:+ s.toList :=
  List.isSuffixOf_iff_suffix

/-- What follows the last slash is the base, when anything does. -/
theorem pathBase_append {dir name : List Char} (hne : name ≠ []) (hfree : '/' ∉ name) :
    pathBase (String.ofList (dir ++ '/' :: name)) = String.ofList name := by
  have hnonempty : String.ofList (dir ++ '/' :: name) ≠ "" := by
    intro hempty
    have := congrArg String.toList hempty
    simp at this
  -- no slash at the end, so nothing is trimmed there
  have hdrop : (dir ++ '/' :: name).reverse.dropWhile (· == '/')
      = name.reverse ++ '/' :: dir.reverse := by
    rw [List.reverse_append, List.reverse_cons, List.append_assoc, List.singleton_append]
    cases hrev : name.reverse with
    | nil => exact absurd (List.reverse_eq_nil_iff.mp hrev) hne
    | cons c rest =>
        have hc : c ∈ name := List.mem_reverse.mp (hrev ▸ List.mem_cons_self)
        have hslash : (c == '/') = false := by
          rw [beq_eq_false_iff_ne]
          exact fun heq => hfree (heq ▸ hc)
        rw [List.cons_append, List.dropWhile_cons, hslash]
        rfl
  -- and the base goes back to the last slash
  have htake : (name.reverse ++ '/' :: dir.reverse).takeWhile (· != '/') = name.reverse := by
    rw [List.takeWhile_append_of_pos]
    · rw [List.takeWhile_cons_of_neg (by decide), List.append_nil]
    · intro c hc
      rw [bne_iff_ne]
      exact fun heq => hfree (heq ▸ List.mem_reverse.mp hc)
  rw [pathBase, if_neg hnonempty, String.toList_ofList, hdrop]
  rw [if_neg (by simp), htake, List.reverse_reverse]

/-- The marker of a folder is a marker. -/
theorem isFolderMarkerKey_marker {folderPath : String} (h : hasSuffix folderPath "/" = true) :
    isFolderMarkerKey (folderPath ++ folderMarkerFilename) = true := by
  obtain ⟨dir, hdir⟩ := hasSuffix_iff.mp h
  have hkey : folderPath ++ folderMarkerFilename
      = String.ofList (dir ++ '/' :: folderMarkerFilename.toList) := by
    rw [← String.toList_inj, String.toList_append, String.toList_ofList, ← hdir]
    simp
  rw [isFolderMarkerKey, hkey, pathBase_append (by decide) (by decide), String.ofList_toList]
  exact beq_self_eq_true _

/-- What a folder operation accepts as a path ends with a slash. -/
theorem hasSuffix_of_folderPath {folderPath : String} (h : validateFolderPath folderPath = .ok ()) :
    hasSuffix folderPath "/" = true := by
  rw [validateFolderPath] at h
  obtain ⟨_, hne, h⟩ := bind_eq_ok.mp h
  rw [validateFolderPrefix] at h
  obtain ⟨_, -, h⟩ := bind_eq_ok.mp h
  split at h
  · next hempty =>
      rw [hempty] at hne
      exact absurd (by decide : trimSpace "" = "") (ensure_eq_ok.mp hne)
  · obtain ⟨_, hsfx, -⟩ := bind_eq_ok.mp h
    exact ensure_eq_ok.mp hsfx

end Validation
