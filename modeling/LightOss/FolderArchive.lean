import LightOss.PathClean
import LightOss.MetadataServices

/-! # Folder archive — every file of a folder once, under a safe name

    The writer goes through the objects of a folder: a marker becomes a directory
    entry, any other object a file entry below the root directory.  With keys the
    upload paths accept, the names never clash and never leave the root.

    Every object below the folder is of one of three kinds (`kind_of_below`), and within
    and across the kinds names are distinct (`archiveName_inj`).  `Ends` says how a part
    of the writing may end; one object keeps it (`writeObject_ends`), and so does the
    loop (`writeObjects_ends`).  `safe_entries` is what the reader of the archive gets. -/

namespace FolderArchive

open Fallible LedgerRows Validation Catalog ObjectKeys PathClean

/-! ## `folder_archive.go` -/

/-- The two ways a zip writer keeps an entry. -/
inductive Method where
  | store
  | deflate
  deriving DecidableEq, Repr

/-- An entry as the reader of the archive sees it: header fields and content. -/
structure ZipEntry where
  name : String
  method : Method
  modTime : Option Time
  content : List UInt8
  deriving DecidableEq, Repr

/-- An opened file: the bytes it delivers, how that ended, and what closing it returned. -/
structure Reader where
  content : List UInt8
  copyErr : Option Err
  closeErr : Option Err

/-- What the writer meets: the request's context before each object, the client behind
    the ZIP writer, and the storage. -/
structure Environment where
  ctxErr : Nat → Option Err
  createHeader : List ZipEntry → String → Option Err
  openFile : String → Except Err Reader
  finish : Option Err

/-- The entries written, and the `directories` map. -/
structure Written where
  entries : List ZipEntry
  directories : List String

/-- An error and the entries the client has got by then. -/
structure Failure where
  err : Err
  entries : List ZipEntry

/-- The header of a directory: stored, no time, no content. -/
def directoryHeader (name : String) : ZipEntry :=
  { name := name, method := .store, modTime := none, content := [] }

/-- The header of a file: deflated, with the time of the object. -/
def fileHeader (name : String) (object : Object) (content : List UInt8) : ZipEntry :=
  { name := name, method := .deflate, modTime := some object.updatedAt, content := content }

/-- `NewAppError` with status 500 for every failure after the first byte. -/
def archiveFailed (message : String) (cause : Err) : Err :=
  .wrapped 500 "folder_archive_failed" message cause

/-- `writeFolderArchiveDirectory`: a directory that was written before is skipped. -/
def writeFolderArchiveDirectory (env : Environment) (w : Written) (name : String) :
    Except Err Written :=
  if name ∈ w.directories then .ok w
  else
    match env.createHeader w.entries name with
    | some err => .error err
    | none => .ok ⟨w.entries ++ [directoryHeader name], name :: w.directories⟩

/-- `folderArchiveRootName`: the last segment of the folder. -/
def folderArchiveRootName (folderPath : String) : String := pathBase (trimSuffix folderPath "/")

/-- `folderArchiveDirectoryName`: the directory a marker stands for; the marker of the
    folder itself stands for the root, which is written first. -/
def folderArchiveDirectoryName (rootName relativePath : String) : String :=
  if relativePath = folderMarkerFilename then ""
  else
    let directoryPath := trimSuffix (trimSuffix relativePath folderMarkerFilename) "/"
    if directoryPath = "" then "" else pathJoin rootName directoryPath ++ "/"

/-- One turn of the loop, for the object with its number. -/
def writeObject (env : Environment) (rootName folderPath : String) (w : Written)
    (numbered : Object × Nat) : Except Failure Written :=
  let object := numbered.1
  match env.ctxErr numbered.2 with
  | some err => .error ⟨err, w.entries⟩
  | none =>
      let relativePath := trimPrefix object.objectKey folderPath
      if relativePath = "" then .ok w
      else if isFolderMarkerKey object.objectKey then
        let directoryName := folderArchiveDirectoryName rootName relativePath
        if directoryName = "" then .ok w
        else
          match writeFolderArchiveDirectory env w directoryName with
          | .error err => .error ⟨archiveFailed "failed to write folder archive" err, w.entries⟩
          | .ok w => .ok w
      else
        let name := pathJoin rootName relativePath
        match env.createHeader w.entries name with
        | some err => .error ⟨archiveFailed "failed to write folder archive" err, w.entries⟩
        | none =>
            match env.openFile object.storagePath with
            | .error err =>
                .error ⟨archiveFailed "failed to open folder archive object" err,
                  w.entries ++ [fileHeader name object []]⟩
            | .ok reader =>
                let entries := w.entries ++ [fileHeader name object reader.content]
                match reader.copyErr, reader.closeErr with
                | some err, _ =>
                    .error ⟨archiveFailed "failed to stream folder archive object" err, entries⟩
                | none, some err =>
                    .error ⟨archiveFailed "failed to close folder archive object" err, entries⟩
                | none, none => .ok { w with entries := entries }

/-- `WriteFolderArchive`: the root, then every object in order, then the end record. -/
def writeFolderArchive (env : Environment) (rootName folderPath : String) (objects : List Object) :
    Except Failure (List ZipEntry) :=
  match writeFolderArchiveDirectory env ⟨[], []⟩ (rootName ++ "/") with
  | .error err => .error ⟨archiveFailed "failed to write folder archive" err, []⟩
  | .ok w => do
      let w ← objects.zipIdx.foldlM (writeObject env rootName folderPath) w
      match env.finish with
      | some err => .error ⟨archiveFailed "failed to finalize folder archive" err, w.entries⟩
      | none => .ok w.entries

/-! ## The keys of a folder -/

/-- The name of an object in the archive: a marker stands for its directory. -/
def archiveName (rootName folderPath : String) (o : Object) : String :=
  rootName ++ "/" ++
    if isFolderMarkerKey o.objectKey then
      trimSuffix (trimPrefix o.objectKey folderPath) folderMarkerFilename
    else trimPrefix o.objectKey folderPath

section Names

variable {rootName dir relativePath : String} {o : Object}

/-- The three kinds of objects: the folder's own marker, a nested marker, a file. -/
inductive Kind (dir : String) (o : Object) : Prop where
  | root (hkey : o.objectKey = dir ++ "/" ++ folderMarkerFilename) : Kind dir o
  | nested (sub : String) (hsub : GoodSegments sub)
      (hkey : o.objectKey = dir ++ "/" ++ (sub ++ "/" ++ folderMarkerFilename)) : Kind dir o
  | file (relativePath : String) (hgood : GoodSegments relativePath)
      (hkey : o.objectKey = dir ++ "/" ++ relativePath)
      (hfile : isFolderMarkerKey o.objectKey = false) : Kind dir o

/-- An object below the folder is a file, a nested marker or the marker of the folder. -/
theorem kind_of_below (hgood : GoodSegments relativePath)
    (hkey : o.objectKey = dir ++ "/" ++ relativePath) : Kind dir o := by
  cases hmarker : isFolderMarkerKey o.objectKey with
  | false => exact .file relativePath hgood hkey hmarker
  | true =>
      rw [isFolderMarkerKey, hkey, pathBase_below dir hgood, beq_iff_eq] at hmarker
      obtain ⟨-, -, hrest⟩ := base_of_good hgood
      rw [hmarker] at hrest
      rcases hrest with hroot | ⟨sub, hsub, hnested⟩
      · exact .root (hroot ▸ hkey)
      · exact .nested sub hsub (hnested ▸ hkey)

/-- The name of the marker is a segment the upload paths accept. -/
theorem good_marker : GoodSegments folderMarkerFilename := by decide

/-- Trimming the folder's path leaves what stands after it. -/
theorem relative_eq (hkey : o.objectKey = dir ++ "/" ++ relativePath) :
    trimPrefix o.objectKey (dir ++ "/") = relativePath := by
  rw [hkey, trimPrefix_append]

/-- Whether a key is a marker's is decided by its last segment. -/
theorem isMarker_below (hgood : GoodSegments relativePath)
    (hkey : o.objectKey = dir ++ "/" ++ relativePath) :
    isFolderMarkerKey o.objectKey = (pathBase relativePath == folderMarkerFilename) := by
  rw [isFolderMarkerKey, hkey, pathBase_below dir hgood]

/-- The key of the folder's own marker. -/
theorem marker_root (hkey : o.objectKey = dir ++ "/" ++ folderMarkerFilename) :
    isFolderMarkerKey o.objectKey = true := by
  rw [isMarker_below good_marker hkey]
  decide

theorem marker_nested {sub : String} (hsub : GoodSegments sub)
    (hkey : o.objectKey = dir ++ "/" ++ (sub ++ "/" ++ folderMarkerFilename)) :
    isFolderMarkerKey o.objectKey = true := by
  rw [isMarker_below (goodSegments_join.mpr ⟨hsub, good_marker⟩) hkey,
    pathBase_below sub good_marker]
  decide

/-- The folder's own marker gets the name of the root directory. -/
theorem archiveName_root (hkey : o.objectKey = dir ++ "/" ++ folderMarkerFilename) :
    archiveName rootName (dir ++ "/") o = rootName ++ "/" := by
  rw [archiveName, if_pos (marker_root hkey), relative_eq hkey]
  have htrim : trimSuffix folderMarkerFilename folderMarkerFilename = "" := by decide
  rw [htrim, String.append_empty]

/-- A nested marker gets the name of its directory. -/
theorem archiveName_nested {sub : String} (hsub : GoodSegments sub)
    (hkey : o.objectKey = dir ++ "/" ++ (sub ++ "/" ++ folderMarkerFilename)) :
    archiveName rootName (dir ++ "/") o = rootName ++ "/" ++ (sub ++ "/") := by
  rw [archiveName, if_pos (marker_nested hsub hkey), relative_eq hkey, trimSuffix_append]

/-- A file keeps its relative path below the root. -/
theorem archiveName_file (hkey : o.objectKey = dir ++ "/" ++ relativePath)
    (hfile : isFolderMarkerKey o.objectKey = false) :
    archiveName rootName (dir ++ "/") o = rootName ++ "/" ++ relativePath := by
  rw [archiveName, if_neg (by rw [hfile]; nofun), relative_eq hkey]

/-- The directory a nested marker stands for. -/
theorem directoryName_nested {sub : String} (hroot : GoodSegments rootName)
    (hsub : GoodSegments sub) :
    folderArchiveDirectoryName rootName (sub ++ "/" ++ folderMarkerFilename)
      = rootName ++ "/" ++ (sub ++ "/") := by
  have hne : sub ++ "/" ++ folderMarkerFilename ≠ folderMarkerFilename := by
    intro heq
    have hlen := congrArg String.length heq
    simp at hlen
  rw [folderArchiveDirectoryName, if_neg hne, trimSuffix_append, trimSuffix_append]
  dsimp only
  rw [if_neg (ne_empty_of_good hsub), pathJoin_good hroot hsub, String.append_assoc]

/-- The root directory is the last segment of the folder. -/
theorem rootName_good (hdir : GoodSegments dir) :
    GoodSegments (folderArchiveRootName (dir ++ "/"))
      ∧ '/' ∉ (folderArchiveRootName (dir ++ "/")).toList := by
  rw [folderArchiveRootName, trimSuffix_append]
  exact ⟨(base_of_good hdir).2.1, (base_of_good hdir).1⟩

/-! ## Names that do not clash -/

/-- The name of a file never looks like a directory's. -/
theorem hasSuffix_slash_of_good {s : String} (h : GoodSegments s) (front : String) :
    hasSuffix (front ++ s) "/" = false := by
  refine Bool.eq_false_iff.mpr fun hsfx => ?_
  obtain ⟨start, c, hs, hc⟩ := getLast_of_good h
  obtain ⟨rest, hrest⟩ := hasSuffix_iff.mp hsfx
  rw [String.toList_append, hs, ← List.append_assoc] at hrest
  exact hc (List.cons.inj (List.append_inj_right' hrest rfl)).1.symm

/-- The name of a directory always ends in a slash. -/
theorem hasSuffix_slash (front : String) : hasSuffix (front ++ "/") "/" = true := by
  rw [hasSuffix_iff, String.toList_append]
  exact List.suffix_append _ _

/-- Directories of one name are one directory. -/
theorem append_slash_inj {a b : String} (h : a ++ "/" = b ++ "/") : a = b := by
  have hchars := congrArg String.toList h
  rw [String.toList_append, String.toList_append] at hchars
  exact String.toList_inj.mp (List.append_inj_left' hchars rfl)

/-- What stands before two equal texts can be cancelled. -/
theorem append_left_inj {front a b : String} (h : front ++ a = front ++ b) : a = b := by
  have hchars := congrArg String.toList h
  rw [String.toList_append, String.toList_append] at hchars
  exact String.toList_inj.mp (List.append_cancel_left hchars)

/-- **Distinct names**: objects of one name in the archive have one key. -/
theorem archiveName_inj {o' : Object} (h : Kind dir o) (h' : Kind dir o')
    (heq : archiveName rootName (dir ++ "/") o = archiveName rootName (dir ++ "/") o') :
    o.objectKey = o'.objectKey := by
  have hmixed : ∀ {front rest : String}, GoodSegments rest →
      rootName ++ "/" ++ rest ≠ front ++ "/" := by
    intro front rest hrest hname
    have hsfx := hasSuffix_slash front
    rw [← hname, hasSuffix_slash_of_good hrest] at hsfx
    exact Bool.false_ne_true hsfx
  have hempty : ∀ {sub : String}, rootName ++ "/" ≠ rootName ++ "/" ++ (sub ++ "/") := by
    intro sub hname
    have hlen := congrArg String.length hname
    simp at hlen
  -- a file's name ends without a slash, a directory's with one
  cases h with
  | root hkey =>
      rw [archiveName_root hkey] at heq
      cases h' with
      | root hkey' => rw [hkey, hkey']
      | nested sub' hsub' hkey' =>
          rw [archiveName_nested hsub' hkey'] at heq
          exact absurd heq hempty
      | file rel' hgood' hkey' hfile' =>
          rw [archiveName_file hkey' hfile'] at heq
          exact absurd heq.symm (hmixed hgood')
  | nested sub hsub hkey =>
      rw [archiveName_nested hsub hkey] at heq
      cases h' with
      | root hkey' =>
          rw [archiveName_root hkey'] at heq
          exact absurd heq.symm hempty
      | nested sub' hsub' hkey' =>
          rw [archiveName_nested hsub' hkey'] at heq
          rw [hkey, hkey', append_slash_inj (append_left_inj heq)]
      | file rel' hgood' hkey' hfile' =>
          rw [archiveName_file hkey' hfile', ← String.append_assoc] at heq
          exact absurd heq.symm (hmixed hgood')
  | file rel hgood hkey hfile =>
      rw [archiveName_file hkey hfile] at heq
      cases h' with
      | root hkey' =>
          rw [archiveName_root hkey'] at heq
          exact absurd heq (hmixed hgood)
      | nested sub' hsub' hkey' =>
          rw [archiveName_nested hsub' hkey', ← String.append_assoc] at heq
          exact absurd heq (hmixed hgood)
      | file rel' hgood' hkey' hfile' =>
          rw [archiveName_file hkey' hfile'] at heq
          rw [hkey, hkey', append_left_inj heq]

end Names

/-! ## What the writer writes -/

/-- What the storage delivers of an object. -/
def contentOf (env : Environment) (o : Object) : List UInt8 :=
  match env.openFile o.storagePath with
  | .ok reader => reader.content
  | .error _ => []

/-- The entry of an object; the folder's own marker has none besides the root's. -/
def entriesOf (env : Environment) (rootName folderPath : String) (o : Object) : List ZipEntry :=
  if o.objectKey = folderPath ++ folderMarkerFilename then []
  else if isFolderMarkerKey o.objectKey then [directoryHeader (archiveName rootName folderPath o)]
  else [fileHeader (archiveName rootName folderPath o) o (contentOf env o)]

/-- Nothing the writer meets fails. -/
structure Quiet (env : Environment) (objects : List Object) : Prop where
  ctx : ∀ n, env.ctxErr n = none
  header : ∀ entries name, env.createHeader entries name = none
  files : ∀ o ∈ objects, isFolderMarkerKey o.objectKey = false →
    ∃ content, env.openFile o.storagePath = .ok ⟨content, none, none⟩
  finish : env.finish = none

/-- A directory counts as written only with its entry. -/
def Entered (w : Written) : Prop := ∀ name ∈ w.directories, name ∈ w.entries.map ZipEntry.name

/-- How a part of the writing ends: with all its entries, or after some of their names. -/
def Ends (ok : Prop) (w : Written) (entries : List ZipEntry) : Except Failure Written → Prop
  | .ok w' => w'.entries = w.entries ++ entries ∧ Entered w'
  | .error f => f.entries.map ZipEntry.name <+: (w.entries ++ entries).map ZipEntry.name ∧ ¬ ok

section Writing

variable {env : Environment} {rootName dir : String} {o : Object} {w : Written} {n : Nat}

/-- The folder's own marker adds nothing: its directory is there already. -/
theorem entriesOf_root (hkey : o.objectKey = dir ++ "/" ++ folderMarkerFilename) :
    entriesOf env rootName (dir ++ "/") o = [] := if_pos hkey

/-- A nested marker is not the marker of the folder. -/
theorem nested_ne_root {sub : String}
    (hkey : o.objectKey = dir ++ "/" ++ (sub ++ "/" ++ folderMarkerFilename)) :
    o.objectKey ≠ dir ++ "/" ++ folderMarkerFilename := by
  intro heq
  have hlen := congrArg String.length (append_left_inj (hkey.symm.trans heq))
  simp at hlen

/-- A nested marker adds its directory. -/
theorem entriesOf_nested {sub : String} (hsub : GoodSegments sub)
    (hkey : o.objectKey = dir ++ "/" ++ (sub ++ "/" ++ folderMarkerFilename)) :
    entriesOf env rootName (dir ++ "/") o
        = [directoryHeader (rootName ++ "/" ++ (sub ++ "/"))] := by
  rw [entriesOf, if_neg (nested_ne_root hkey), if_pos (marker_nested hsub hkey),
    archiveName_nested hsub hkey]

/-- A file adds one entry with its content. -/
theorem entriesOf_file {relativePath : String} (hkey : o.objectKey = dir ++ "/" ++ relativePath)
    (hfile : isFolderMarkerKey o.objectKey = false) :
    entriesOf env rootName (dir ++ "/") o
      = [fileHeader (rootName ++ "/" ++ relativePath) o (contentOf env o)] := by
  have hne : o.objectKey ≠ dir ++ "/" ++ folderMarkerFilename := by
    intro heq
    exact Bool.false_ne_true (hfile.symm.trans (marker_root heq))
  rw [entriesOf, if_neg hne, if_neg (by rw [hfile]; nofun), archiveName_file hkey hfile]

/-- A directory that is written is noted as written. -/
theorem Entered.directory (h : Entered w) (name : String) :
    Entered ⟨w.entries ++ [directoryHeader name], name :: w.directories⟩ := by
  intro name' hname'
  rw [List.map_append, List.mem_append]
  rcases List.mem_cons.mp hname' with rfl | hname'
  · exact Or.inr List.mem_cons_self
  · exact Or.inl (h name' hname')

/-- A file leaves the list of directories alone. -/
theorem Entered.file (h : Entered w) (entry : ZipEntry) :
    Entered { w with entries := w.entries ++ [entry] } := by
  intro name hname
  rw [List.map_append]
  exact List.mem_append_left _ (h name hname)

/-- What was written before counts. -/
theorem Ends.after {ok : Prop} {w' : Written} {entries entries' : List ZipEntry}
    {result : Except Failure Written} (h : Ends ok w' entries' result)
    (hentries : w'.entries = w.entries ++ entries) : Ends ok w (entries ++ entries') result := by
  cases result with
  | error f =>
      refine ⟨?_, h.2⟩
      rw [← List.append_assoc, ← hentries]
      exact h.1
  | ok w'' =>
      refine ⟨?_, h.2⟩
      rw [← List.append_assoc, ← hentries]
      exact h.1

/-- **One object of the loop**: its entries are added, or the writer stops with an error
    that is the object's own. -/
theorem writeObject_ends {objects : List Object} (ho : o ∈ objects) (hkind : Kind dir o)
    (hroot : GoodSegments rootName) (hw : Entered w)
    (hnew : ∀ e ∈ entriesOf env rootName (dir ++ "/") o, e.name ∉ w.entries.map ZipEntry.name) :
    Ends (Quiet env objects) w (entriesOf env rootName (dir ++ "/") o)
      (writeObject env rootName (dir ++ "/") w (o, n)) := by
  have hstopped : ∀ {entries : List ZipEntry},
      w.entries.map ZipEntry.name <+: (w.entries ++ entries).map ZipEntry.name := by
    intro entries
    rw [List.map_append]
    exact List.prefix_append _ _
  rw [writeObject]
  dsimp only
  split
  -- the request was given up before this object
  · next err hctx => exact ⟨hstopped, fun hq => nomatch hctx.symm.trans (hq.ctx n)⟩
  · cases hkind with
    | root hkey =>
        have hname : folderArchiveDirectoryName rootName folderMarkerFilename = "" := if_pos rfl
        rw [relative_eq hkey, if_neg (by decide), if_pos (marker_root hkey), hname, if_pos rfl,
          entriesOf_root hkey]
        exact ⟨(List.append_nil _).symm, hw⟩
    | nested sub hsub hkey =>
        rw [entriesOf_nested hsub hkey] at hnew ⊢
        have hgood : GoodSegments (sub ++ "/" ++ folderMarkerFilename) :=
          goodSegments_join.mpr ⟨hsub, good_marker⟩
        have hdirectory : rootName ++ "/" ++ (sub ++ "/") ≠ "" := by
          intro hempty
          have hlen := congrArg String.length hempty
          simp at hlen
        have hfresh : rootName ++ "/" ++ (sub ++ "/") ∉ w.directories :=
          fun hmem => hnew _ List.mem_cons_self (hw _ hmem)
        rw [relative_eq hkey, if_neg (ne_empty_of_good hgood), if_pos (marker_nested hsub hkey),
          directoryName_nested hroot hsub, if_neg hdirectory, writeFolderArchiveDirectory,
          if_neg hfresh]
        -- a refused header is the first thing that may fail
        cases hheader : env.createHeader w.entries (rootName ++ "/" ++ (sub ++ "/")) with
        | some err => exact ⟨hstopped, fun hq => nomatch hheader.symm.trans (hq.header _ _)⟩
        | none => exact ⟨rfl, hw.directory _⟩
    | file rel hgood hkey hfile =>
        rw [entriesOf_file hkey hfile, relative_eq hkey, if_neg (ne_empty_of_good hgood),
          if_neg (by rw [hfile]; nofun), pathJoin_good hroot hgood]
        have hbegun : ∀ content, (w.entries ++ [fileHeader (rootName ++ "/" ++ rel) o content]).map
            ZipEntry.name <+: (w.entries ++ [fileHeader (rootName ++ "/" ++ rel) o
              (contentOf env o)]).map ZipEntry.name := by
          intro content
          rw [List.map_append, List.map_append]
          exact List.prefix_refl _
        cases hheader : env.createHeader w.entries (rootName ++ "/" ++ rel) with
        | some err => exact ⟨hstopped, fun hq => nomatch hheader.symm.trans (hq.header _ _)⟩
        | none =>
            dsimp only
            -- from here on the header is out, with as much of the file as was copied
            cases hopen : env.openFile o.storagePath with
            | error err =>
                refine ⟨hbegun [], fun hq => ?_⟩
                obtain ⟨content, hread⟩ := hq.files o ho hfile
                exact nomatch hopen.symm.trans hread
            | ok reader =>
                obtain ⟨content, copyErr, closeErr⟩ := reader
                have hcontent : contentOf env o = content := by rw [contentOf, hopen]
                dsimp only
                split
                · next err hcopy =>
                    refine ⟨hbegun content, fun hq => ?_⟩
                    obtain ⟨bytes, hread⟩ := hq.files o ho hfile
                    cases hopen.symm.trans hread
                · next err hcopy hclose =>
                    refine ⟨hbegun content, fun hq => ?_⟩
                    obtain ⟨bytes, hread⟩ := hq.files o ho hfile
                    cases hopen.symm.trans hread
                · rw [hcontent]
                  exact ⟨rfl, hw.file _⟩

/-- The loop: by induction on the objects, with the names written so far distinct from
    those to come. -/
theorem writeObjects_ends (env : Environment) {all : List Object} (hroot : GoodSegments rootName) :
    ∀ (objects : List Object) (w : Written) (n : Nat), objects ⊆ all →
      (∀ o ∈ objects, Kind dir o) → Entered w →
      ((w.entries ++ objects.flatMap (entriesOf env rootName (dir ++ "/"))).map
        ZipEntry.name).Nodup →
      Ends (Quiet env all) w (objects.flatMap (entriesOf env rootName (dir ++ "/")))
        ((objects.zipIdx n).foldlM (writeObject env rootName (dir ++ "/")) w) := by
  intro objects
  induction objects with
  | nil => exact fun w n _ _ hw _ => ⟨(List.append_nil _).symm, hw⟩
  | cons o rest ih =>
      intro w n hsub hkinds hw hnames
      obtain ⟨ho, hrest⟩ := List.forall_mem_cons.mp hkinds
      rw [List.flatMap_cons, ← List.append_assoc] at hnames
      have hnew : ∀ e ∈ entriesOf env rootName (dir ++ "/") o,
          e.name ∉ w.entries.map ZipEntry.name := by
        intro e he hmem
        rw [List.map_append, List.map_append] at hnames
        have hdisjoint := (List.nodup_append.mp (List.nodup_append.mp hnames).1).2.2
        exact hdisjoint _ hmem _ (List.mem_map_of_mem he) rfl
      have hturn := writeObject_ends (n := n) (hsub List.mem_cons_self) ho hroot hw hnew
      rw [List.zipIdx_cons, List.foldlM_cons, List.flatMap_cons]
      cases hresult : writeObject env rootName (dir ++ "/") w (o, n) with
      -- names already written stay written
      | error f =>
          rw [hresult] at hturn
          refine ⟨hturn.1.trans ?_, hturn.2⟩
          rw [← List.append_assoc]
          exact (List.prefix_append _ _).map ZipEntry.name
      | ok w' =>
          rw [hresult] at hturn
          obtain ⟨hentries, hw'⟩ := hturn
          rw [← hentries] at hnames
          have hmore :=
            ih w' (n + 1) (fun x hx => hsub (List.mem_cons_of_mem _ hx)) hrest hw' hnames
          exact hmore.after hentries

end Writing

/-! ## The entries of a folder -/

/-- The entries of a complete archive: the root, then those of each object. -/
def archiveEntries (env : Environment) (rootName folderPath : String) (objects : List Object) :
    List ZipEntry :=
  directoryHeader (rootName ++ "/") :: objects.flatMap (entriesOf env rootName folderPath)

/-- One entry for each file, with its content, and one for the root and each nested marker. -/
structure Complete (env : Environment) (rootName folderPath : String) (objects : List Object)
    (entries : List ZipEntry) : Prop where
  files : (entries.filter fun e => !hasSuffix e.name "/")
    = (objects.filter fun o => !isFolderMarkerKey o.objectKey).map fun o =>
        fileHeader (rootName ++ "/" ++ trimPrefix o.objectKey folderPath) o (contentOf env o)
  directories : (entries.filter fun e => hasSuffix e.name "/")
    = directoryHeader (rootName ++ "/")
      :: (objects.filter fun o => isFolderMarkerKey o.objectKey
          && o.objectKey != folderPath ++ folderMarkerFilename).map fun o =>
        directoryHeader (rootName ++ "/"
          ++ trimSuffix (trimPrefix o.objectKey folderPath) folderMarkerFilename)

/-- Names that do not clash and that stay below the root directory when extracted. -/
structure Safe (rootName : String) (names : List String) : Prop where
  distinct : names.Nodup
  inside : ∀ name ∈ names, hasPrefix name (rootName ++ "/") = true
  segs : ∀ name ∈ names, GoodSegments (trimSuffix name "/")

/-- Leaving names out keeps the rest safe. -/
theorem Safe.sublist {rootName : String} {names names' : List String} (h : Safe rootName names)
    (hsub : names'.Sublist names) : Safe rootName names' where
  distinct := h.distinct.sublist hsub
  inside name hname := h.inside name (hsub.subset hname)
  segs name hname := h.segs name (hsub.subset hname)

section Entries

variable {env : Environment} {rootName dir : String} {objects : List Object} {o : Object}

/-- The file entries are those of the objects that are no markers, in order. -/
theorem files_entries (hkinds : ∀ o ∈ objects, Kind dir o) :
    ((objects.flatMap (entriesOf env rootName (dir ++ "/"))).filter fun e => !hasSuffix e.name "/")
      = (objects.filter fun o => !isFolderMarkerKey o.objectKey).map fun o =>
        fileHeader (rootName ++ "/" ++ trimPrefix o.objectKey (dir ++ "/")) o
            (contentOf env o) := by
  induction objects with
  | nil => rfl
  | cons o rest ih =>
      obtain ⟨ho, hrest⟩ := List.forall_mem_cons.mp hkinds
      rw [List.flatMap_cons, List.filter_append, ih hrest]
      cases ho with
      | root hkey =>
          rw [entriesOf_root hkey, List.filter_cons_of_neg (by simp [marker_root hkey])]
          rfl
      | nested sub hsub hkey =>
          have hsfx : hasSuffix (rootName ++ "/" ++ (sub ++ "/")) "/" = true := by
            rw [← String.append_assoc]
            exact hasSuffix_slash _
          rw [entriesOf_nested hsub hkey,
            List.filter_cons_of_neg (by simp [directoryHeader, hsfx]),
            List.filter_cons_of_neg (by simp [marker_nested hsub hkey])]
          rfl
      | file rel hgood hkey hfile =>
          have hsfx := hasSuffix_slash_of_good hgood (rootName ++ "/")
          rw [entriesOf_file hkey hfile, List.filter_cons_of_pos (by simp [fileHeader, hsfx]),
            List.filter_cons_of_pos (by simp [hfile]), List.map_cons, relative_eq hkey]
          rfl

/-- The directory entries are those of the markers other than the folder's own. -/
theorem directories_entries (hkinds : ∀ o ∈ objects, Kind dir o) :
    ((objects.flatMap (entriesOf env rootName (dir ++ "/"))).filter fun e => hasSuffix e.name "/")
      = (objects.filter fun o => isFolderMarkerKey o.objectKey
          && o.objectKey != dir ++ "/" ++ folderMarkerFilename).map fun o =>
        directoryHeader (rootName ++ "/"
          ++ trimSuffix (trimPrefix o.objectKey (dir ++ "/")) folderMarkerFilename) := by
  induction objects with
  | nil => rfl
  | cons o rest ih =>
      obtain ⟨ho, hrest⟩ := List.forall_mem_cons.mp hkinds
      rw [List.flatMap_cons, List.filter_append, ih hrest]
      cases ho with
      | root hkey =>
          rw [entriesOf_root hkey, List.filter_cons_of_neg (by simp [hkey])]
          rfl
      | nested sub hsub hkey =>
          have hsfx : hasSuffix (rootName ++ "/" ++ (sub ++ "/")) "/" = true := by
            rw [← String.append_assoc]
            exact hasSuffix_slash _
          rw [entriesOf_nested hsub hkey,
            List.filter_cons_of_pos (by simp [directoryHeader, hsfx]),
            List.filter_cons_of_pos (by simp [marker_nested hsub hkey, nested_ne_root hkey]),
            List.map_cons, relative_eq hkey, trimSuffix_append]
          rfl
      | file rel hgood hkey hfile =>
          have hsfx := hasSuffix_slash_of_good hgood (rootName ++ "/")
          rw [entriesOf_file hkey hfile, List.filter_cons_of_neg (by simp [fileHeader, hsfx]),
            List.filter_cons_of_neg (by simp [hfile])]
          rfl

/-- The entries describe every object once. -/
theorem complete_entries (hkinds : ∀ o ∈ objects, Kind dir o) :
    Complete env rootName (dir ++ "/") objects
      (archiveEntries env rootName (dir ++ "/") objects) where
  files := by
    have hsfx := hasSuffix_slash rootName
    rw [archiveEntries, List.filter_cons_of_neg (by simp [directoryHeader, hsfx])]
    exact files_entries hkinds
  directories := by
    have hsfx := hasSuffix_slash rootName
    rw [archiveEntries, List.filter_cons_of_pos (by simp [directoryHeader, hsfx]),
      directories_entries hkinds]

/-- Every name of an entry is the archive name of an object, in the objects' order. -/
theorem names_sublist (env : Environment) (objects : List Object) :
    ((objects.flatMap (entriesOf env rootName (dir ++ "/"))).map ZipEntry.name).Sublist
      (objects.map (archiveName rootName (dir ++ "/"))) := by
  induction objects with
  | nil => exact List.Sublist.refl _
  | cons o rest ih =>
      rw [List.flatMap_cons, List.map_append, List.map_cons, entriesOf]
      split
      · exact ih.cons _
      · split <;> exact ih.cons_cons _

/-- The root's name is the name of no other entry. -/
theorem root_notMem (hkinds : ∀ o ∈ objects, Kind dir o) :
    rootName ++ "/" ∉
      (objects.flatMap (entriesOf env rootName (dir ++ "/"))).map ZipEntry.name := by
  intro hmem
  obtain ⟨e, he, hname⟩ := List.mem_map.mp hmem
  obtain ⟨o, ho, he⟩ := List.mem_flatMap.mp he
  cases hkinds o ho with
  | root hkey =>
      rw [entriesOf_root hkey] at he
      exact nomatch he
  | nested sub hsub hkey =>
      rw [entriesOf_nested hsub hkey] at he
      rw [List.mem_singleton.mp he] at hname
      have hlen := congrArg String.length hname
      simp [directoryHeader] at hlen
  | file rel hgood hkey hfile =>
      rw [entriesOf_file hkey hfile] at he
      rw [List.mem_singleton.mp he] at hname
      have hsfx := hasSuffix_slash rootName
      rw [← hname] at hsfx
      exact Bool.false_ne_true ((hasSuffix_slash_of_good hgood (rootName ++ "/")).symm.trans hsfx)

/-- Where the name of an object's entry stands. -/
theorem archiveName_safe (hroot : GoodSegments rootName) (hkind : Kind dir o) :
    hasPrefix (archiveName rootName (dir ++ "/") o) (rootName ++ "/") = true
      ∧ GoodSegments (trimSuffix (archiveName rootName (dir ++ "/") o) "/") := by
  refine ⟨?_, ?_⟩
  · rw [archiveName, hasPrefix, String.toList_append (s := rootName ++ "/")]
    exact List.isPrefixOf_iff_prefix.mpr (List.prefix_append _ _)
  · cases hkind with
    | root hkey =>
        rw [archiveName_root hkey, trimSuffix_append]
        exact hroot
    | nested sub hsub hkey =>
        rw [archiveName_nested hsub hkey, ← String.append_assoc, trimSuffix_append]
        exact goodSegments_join.mpr ⟨hroot, hsub⟩
    | file rel hgood hkey hfile =>
        rw [archiveName_file hkey hfile, trimSuffix,
          if_neg (by rw [hasSuffix_slash_of_good hgood]; exact Bool.false_ne_true)]
        exact goodSegments_join.mpr ⟨hroot, hgood⟩

/-- The names stay below the root and do not repeat, for distinct keys. -/
theorem safe_entries (env : Environment) (hroot : GoodSegments rootName)
    (hkinds : ∀ o ∈ objects, Kind dir o)
    (hnodup : (objects.map Object.objectKey).Nodup) :
    Safe rootName ((archiveEntries env rootName (dir ++ "/") objects).map ZipEntry.name) := by
  have hname : ∀ name ∈ (archiveEntries env rootName (dir ++ "/") objects).map ZipEntry.name,
      name = rootName ++ "/" ∨ ∃ o ∈ objects, name = archiveName rootName (dir ++ "/") o := by
    intro name hmem
    rcases List.mem_cons.mp hmem with rfl | hmem
    · exact Or.inl rfl
    · obtain ⟨o, ho, rfl⟩ := List.mem_map.mp ((names_sublist env objects).subset hmem)
      exact Or.inr ⟨o, ho, rfl⟩
  refine ⟨List.nodup_cons.mpr ⟨root_notMem hkinds, ?_⟩, fun name hmem => ?_, fun name hmem => ?_⟩
  · refine List.Nodup.sublist (names_sublist env objects) (List.Nodup.map_on ?_ hnodup.of_map)
    intro o ho o' ho' heq
    exact List.inj_on_of_nodup_map hnodup ho ho' (archiveName_inj (hkinds o ho) (hkinds o' ho') heq)
  · rcases hname name hmem with rfl | ⟨o, ho, rfl⟩
    · exact List.isPrefixOf_iff_prefix.mpr (List.prefix_refl _)
    · exact (archiveName_safe hroot (hkinds o ho)).1
  · rcases hname name hmem with rfl | ⟨o, ho, rfl⟩
    · rw [trimSuffix_append]
      exact hroot
    · exact (archiveName_safe hroot (hkinds o ho)).2

end Entries

/-! ## The archive of a folder -/

section Main

variable {folderPath : String} {objects : List Object}

/-- All entries are written, or something failed after some of their names. -/
def Finishes (env : Environment) (objects : List Object) (entries : List ZipEntry) :
    Except Failure (List ZipEntry) → Prop
  | .ok written => written = entries
  | .error f => ¬ Quiet env objects
      ∧ f.entries.map ZipEntry.name <+: entries.map ZipEntry.name

/-- The loop finishes with these entries or stops with an error that is not the names'. -/
theorem writeFolderArchive_finishes (env : Environment) {rootName dir : String}
    (hroot : GoodSegments rootName) (hkinds : ∀ o ∈ objects, Kind dir o)
    (hnodup : (objects.map Object.objectKey).Nodup) :
    Finishes env objects (archiveEntries env rootName (dir ++ "/") objects)
      (writeFolderArchive env rootName (dir ++ "/") objects) := by
  have hnames := (safe_entries env hroot hkinds hnodup).distinct
  rw [writeFolderArchive, writeFolderArchiveDirectory, if_neg List.not_mem_nil]
  cases hheader : env.createHeader [] (rootName ++ "/") with
  | some err => exact ⟨fun hq => (nomatch hheader.symm.trans (hq.header _ _)), List.nil_prefix⟩
  | none =>
      have hw : Entered ⟨[directoryHeader (rootName ++ "/")], [rootName ++ "/"]⟩ := by
        intro name hname
        rw [List.mem_singleton.mp hname]
        exact List.mem_cons_self
      have hloop := writeObjects_ends env hroot objects _ 0 (List.Subset.refl _) hkinds hw hnames
      dsimp only [List.nil_append]
      cases hresult : objects.zipIdx.foldlM (writeObject env rootName (dir ++ "/"))
          ⟨[directoryHeader (rootName ++ "/")], [rootName ++ "/"]⟩ with
      | error f =>
          rw [hresult] at hloop
          exact ⟨hloop.2, hloop.1⟩
      | ok w =>
          rw [hresult] at hloop
          have hentries : w.entries = archiveEntries env rootName (dir ++ "/") objects := hloop.1
          cases hfinish : env.finish with
          | some err =>
              refine ⟨fun hq => (nomatch hfinish.symm.trans hq.finish), ?_⟩
              rw [← hentries]
          | none => exact hentries

/-- What the writer is given: objects with accepted keys under the folder, each once. -/
structure Under (folderPath : String) (objects : List Object) : Prop where
  keys_nodup : (objects.map Object.objectKey).Nodup
  accepted : ∀ o ∈ objects, validateObjectKey o.objectKey = .ok ()
  under : ∀ o ∈ objects, hasPrefix o.objectKey folderPath = true

/-- Every object of a listing below the folder is of one of the three kinds. -/
theorem Under.kinds {dir : String} (h : Under (dir ++ "/") objects) : ∀ o ∈ objects,
    Kind dir o := by
  intro o ho
  obtain ⟨rest, hrest⟩ := List.isPrefixOf_iff_prefix.mp (h.under o ho)
  have hkey : o.objectKey = dir ++ "/" ++ String.ofList rest := by
    rw [← String.toList_inj, String.toList_append, String.toList_ofList]
    exact hrest.symm
  have hsegs := (validateObjectKey_iff.mp (h.accepted o ho)).segs
  rw [hkey] at hsegs
  exact kind_of_below (goodSegments_join.mp hsegs).2 hkey

/-- Nothing lies under the bare slash. -/
theorem Under.slash (h : Under "/" objects) : objects = [] := by
  refine List.eq_nil_iff_forall_not_mem.mpr fun o ho => ?_
  have hsegs := (validateObjectKey_iff.mp (h.accepted o ho)).segs
  exact Bool.false_ne_true ((hasPrefix_slash_of_good hsegs).symm.trans (h.under o ho))

/-- An archive is opened only when something is listed. -/
theorem openFolderArchiveObjects_ne_nil {k : Collation} {c : Tables k} {bucketName : String}
    {listed : List Object}
    (h : MetadataServices.openFolderArchiveObjects c bucketName folderPath = .ok listed) :
    listed ≠ [] := by
  rw [MetadataServices.openFolderArchiveObjects] at h
  obtain ⟨_, -, h⟩ := bind_eq_ok.mp h
  obtain ⟨_, -, h⟩ := bind_eq_ok.mp h
  obtain ⟨_, -, h⟩ := bind_eq_ok.mp h
  obtain ⟨_, hexists, h⟩ := bind_eq_ok.mp h
  have hcount := of_decide_eq_true (ensure_eq_ok.mp hexists)
  rw [← pure_eq_ok.mp h, listActiveByPrefixOrdered, ← List.length_pos_iff, List.length_mergeSort]
  exact hcount

/-- **Every file once, under a safe name.**  A finished archive has the files and the
    directories of the folder; an archive cut short by an error has some of their names;
    names do not clash, stay below the root and tell the objects apart. -/
theorem folder_archive (hfolder : validateFolderPath folderPath = .ok ())
    (hunder : Under folderPath objects) :
    (folderPath = "/" → objects = [] ∧ ∀ (k : Collation) (c : Tables k) bucketName listed,
      MetadataServices.openFolderArchiveObjects c bucketName folderPath = .ok listed → listed ≠ [])
    ∧ (folderPath ≠ "/" →
      (∀ env entries,
        writeFolderArchive env (folderArchiveRootName folderPath) folderPath objects = .ok entries →
          Complete env (folderArchiveRootName folderPath) folderPath objects entries
          ∧ Safe (folderArchiveRootName folderPath) (entries.map ZipEntry.name))
      ∧ (∀ env f,
        writeFolderArchive env (folderArchiveRootName folderPath) folderPath objects = .error f →
          Safe (folderArchiveRootName folderPath) (f.entries.map ZipEntry.name))
      ∧ (∀ env, Quiet env objects → ∃ entries,
        writeFolderArchive env (folderArchiveRootName folderPath) folderPath objects = .ok entries)
      ∧ ∀ o ∈ objects, ∀ o' ∈ objects,
        archiveName (folderArchiveRootName folderPath) folderPath o
          = archiveName (folderArchiveRootName folderPath) folderPath o' → o = o') := by
  refine ⟨fun hslash => ?_, fun hne => ?_⟩
  · subst hslash
    exact ⟨hunder.slash, fun _ _ _ _ hopen => openFolderArchiveObjects_ne_nil hopen⟩
  · have hshape : ∃ dir, folderPath = dir ++ "/" ∧ GoodSegments dir := by
      rw [validateFolderPath] at hfolder
      obtain ⟨_, hempty, hprefix⟩ := bind_eq_ok.mp hfolder
      refine (folder_of_validateFolderPrefix hprefix hne).shape.resolve_left ?_
      rintro rfl
      exact ensure_eq_ok.mp hempty (by decide)
    obtain ⟨dir, rfl, hdir⟩ := hshape
    have hroot := (rootName_good hdir).1
    have hkinds := hunder.kinds
    have hfinishes := fun env => writeFolderArchive_finishes env hroot hkinds hunder.keys_nodup
    refine ⟨fun env entries hok => ?_, fun env f herror => ?_, fun env hquiet => ?_,
      fun o ho o' ho' heq => ?_⟩
    · have hentries := hfinishes env
      rw [hok] at hentries
      obtain rfl : entries = _ := hentries
      exact ⟨complete_entries hkinds, safe_entries env hroot hkinds hunder.keys_nodup⟩
    · have hentries := hfinishes env
      rw [herror] at hentries
      exact (safe_entries env hroot hkinds hunder.keys_nodup).sublist hentries.2.sublist
    · have hentries := hfinishes env
      cases hresult :
          writeFolderArchive env (folderArchiveRootName (dir ++ "/")) (dir ++ "/") objects with
      | ok entries => exact ⟨entries, rfl⟩
      | error f =>
          rw [hresult] at hentries
          exact absurd hquiet hentries.1
    · exact List.inj_on_of_nodup_map hunder.keys_nodup ho ho'
        (archiveName_inj (hkinds o ho) (hkinds o' ho') heq)

end Main

/-! ## A folder with a file, a nested marker and its own marker -/

/-- A folder with its marker, an empty folder in it and a file. -/
def docsObjects : List Object :=
  [{ id := 1, bucketName := "photos", objectKey := "docs/.light-oss-folder"
     storagePath := "a", size := 0 },
   { id := 2, bucketName := "photos", objectKey := "docs/empty/.light-oss-folder"
     storagePath := "b", size := 0 },
   { id := 3, bucketName := "photos", objectKey := "docs/readme.txt"
     storagePath := "c", size := 2 }]

/-- A storage that delivers the same two bytes for every path. -/
def twoBytes : Environment where
  ctxErr _ := none
  createHeader _ _ := none
  openFile _ := .ok ⟨[104, 105], none, none⟩
  finish := none

/-- That folder is written with three entries under distinct names. -/
theorem folder_archive_docs : ∃ entries,
    writeFolderArchive twoBytes "docs" "docs/" docsObjects = .ok entries
      ∧ Complete twoBytes "docs" "docs/" docsObjects entries
      ∧ Safe "docs" (entries.map ZipEntry.name) := by
  have hunder : Under "docs/" docsObjects := by
    refine ⟨by decide, ?_, ?_⟩ <;> decide
  have hmain := (@folder_archive "docs/" docsObjects (by decide) hunder).2 (by decide)
  have hname : folderArchiveRootName "docs/" = "docs" := by decide
  rw [hname] at hmain
  obtain ⟨hdone, -, hquiet, -⟩ := hmain
  obtain ⟨entries, hentries⟩ := hquiet twoBytes
    ⟨fun _ => rfl, fun _ _ => rfl, fun _ _ _ => ⟨_, rfl⟩, rfl⟩
  exact ⟨entries, hentries, hdone twoBytes entries hentries⟩

end FolderArchive
