import LightOss.PathClean
import LightOss.ByteText

/-! # Managed paths — what the store addresses on disk

    Every operation of the store takes relative paths, refuses those that climb, and
    joins the others to its root.  The check looks at the cleaned path and the join
    cleans again, so what is addressed is the cleaned root with at least one element
    behind it.  The paths the services make up pass the check and differ whenever
    their identifiers do.

    `absPath_below` is the one fact about joining; `stage_contained`,
    `commit_contained` and `lookup_contained` go through the calls of each operation
    with it.  A made-up path is its elements joined (`managedElements_ok`,
    `newManagedPath_eq`), which the cleaning leaves alone. -/

namespace ManagedPaths

open LedgerRows Validation ObjectKeys PathClean

/-! ## `filepath` on a slash-separated system -/

/-- `filepath.FromSlash`, which does nothing where the separator is a slash. -/
def fromSlash (p : String) : String := p

def toSlash (p : String) : String := p

def isAbs (p : String) : Bool := hasPrefix p "/"

/-! ## `local_storage.go` -/

/-- `HasTraversal`: the cleaned path is absolute, the root itself, or climbs. -/
def hasTraversal (relativePath : String) : Bool :=
  let cleaned := pathClean relativePath
  isAbs cleaned || cleaned == "." || cleaned == ".." || hasPrefix cleaned "../"

/-- The sixteen bytes of a `uuid.UUID`. -/
structure Uuid where
  bytes : List UInt8
  length_eq : bytes.length = 16
  deriving DecidableEq

/-- A digit as `hex.EncodeToString` writes it. -/
def hexDigit (n : Nat) : Char := "0123456789abcdef".toList.getD n '0'

/-- `hex.EncodeToString`. -/
def encodeHex (bytes : List UInt8) : List Char :=
  bytes.flatMap fun b => [hexDigit (b.toNat / 16), hexDigit (b.toNat % 16)]

/-- `UUID.String`, which `uuid.NewString` calls on a new identifier. -/
def Uuid.toText (u : Uuid) : String :=
  String.ofList (encodeHex (u.bytes.take 4) ++ '-' :: (encodeHex ((u.bytes.drop 4).take 2)
    ++ '-' :: (encodeHex ((u.bytes.drop 6).take 2) ++ '-' :: (encodeHex ((u.bytes.drop 8).take 2)
      ++ '-' :: encodeHex (u.bytes.drop 10)))))

/-- `strings.ReplaceAll(uuid.NewString(), "-", "")`. -/
def newFileID (u : Uuid) : String := String.ofList (u.toText.toList.filter (· ≠ '-'))

/-- `s[i:j]`. -/
def slice (s : String) (i j : Nat) : String := String.ofList ((s.toList.take j).drop i)

/-- `NewManagedPath` with the identifier it makes up. -/
def newManagedPath (namesp extension : String) (u : Uuid) : String :=
  let fileID := newFileID u
  toSlash (filepathJoin [namesp, slice fileID 0 2, slice fileID 2 4, fileID ++ extension])

/-- The namespaces and extensions the services ask for. -/
def managedKinds : List (String × String) := [("staging", ".tmp"), ("objects", ".bin")]

/-! ## The operations -/

/-- A call to the file system. -/
inductive FileCall where
  | mkdirAll (path : String)
  | createFile (path : String)
  | openFile (path : String)
  | stat (path : String)
  | remove (path : String)
  | rename (oldPath newPath : String)
  deriving DecidableEq

/-- The errors the operating system answers with. -/
inductive OsError where
  | notExist
  | other (text : String)
  deriving DecidableEq

/-- The errors of the store. -/
inductive StorageError where
  | invalidStoragePath
  | os (err : OsError)
  | cause (err : Err)
  | shortWrite

/-- `StoredFile`: what `Stage` answers. -/
structure StoredFile where
  relativePath : String
  size : Nat
  etag : String

/-- `LocalStorage`: its root, which the constructor made absolute. -/
structure LocalStorage where
  root : String

/-- The calls an operation made, and what it returned. -/
structure Outcome (α : Type) where
  calls : List FileCall
  result : Except StorageError α

/-- What `Read` returned beside the bytes. -/
inductive ReadError where
  | eof
  | failed (err : Err)

/-- What one turn of the write loop meets. -/
structure Turn where
  ctxErr : Option Err
  buffer : List UInt8
  readErr : Option ReadError
  beforeWrite : Nat → Option Err
  written : Nat
  writeErr : Option OsError

/-- The write of one turn: the content of the file after it. -/
def writeTurn (t : Turn) (content : List UInt8) : Except StorageError (List UInt8) :=
  if t.buffer = [] then .ok content
  else
    match t.beforeWrite (content.length + t.buffer.length) with
    | some err => .error (.cause err)
    | none =>
        match t.writeErr with
        | some err => .error (.os err)
        | none =>
            if t.written = t.buffer.length then .ok (content ++ t.buffer) else .error .shortWrite

/-- The loop of `Stage`; a body that has no turns left is at its end. -/
def copyLoop : List Turn → List UInt8 → Except StorageError (List UInt8)
  | [], content => .ok content
  | t :: rest, content =>
      match t.ctxErr with
      | some err => .error (.cause err)
      | none =>
          match writeTurn t content with
          | .error err => .error err
          | .ok content =>
              match t.readErr with
              | none => copyLoop rest content
              | some .eof => .ok content
              | some (.failed err) => .error (.cause err)

section Operations

-- `os` is what each call reports; `sync` and `close` are what the handle reports
variable (s : LocalStorage) (os : FileCall → Option OsError) (sha256 : List UInt8 → String)

/-- `filepath.Join(s.root, filepath.FromSlash(relativePath))`. -/
def LocalStorage.absPath (relativePath : String) : String :=
  filepathJoin [s.root, fromSlash relativePath]

/-- `Stage`; whatever fails once the file is there removes it. -/
def LocalStorage.stage (stagingPath : String) (turns : List Turn) (sync close : Option OsError) :
    Outcome StoredFile :=
  if hasTraversal stagingPath then ⟨[], .error .invalidStoragePath⟩
  else
    let absPath := s.absPath stagingPath
    let made := [FileCall.mkdirAll (pathDir absPath)]
    match os (.mkdirAll (pathDir absPath)) with
    | some err => ⟨made, .error (.os err)⟩
    | none =>
        let created := made ++ [.createFile absPath]
        match os (.createFile absPath) with
        | some err => ⟨created, .error (.os err)⟩
        | none =>
            match copyLoop turns [] with
            | .error err => ⟨created ++ [.remove absPath], .error err⟩
            | .ok content =>
                match sync, close with
                | some err, _ => ⟨created ++ [.remove absPath], .error (.os err)⟩
                | none, some err => ⟨created ++ [.remove absPath], .error (.os err)⟩
                | none, none => ⟨created, .ok ⟨stagingPath, content.length, sha256 content⟩⟩

/-- `Commit`; when the final file is there, the staging file is a leftover. -/
def LocalStorage.commit (stagingPath finalPath : String) : Outcome Unit :=
  if hasTraversal stagingPath || hasTraversal finalPath then ⟨[], .error .invalidStoragePath⟩
  else
    let stagingAbsPath := s.absPath stagingPath
    let finalAbsPath := s.absPath finalPath
    let looked := [FileCall.stat finalAbsPath]
    match os (.stat finalAbsPath) with
    | none =>
        let removed := looked ++ [.remove stagingAbsPath]
        match os (.remove stagingAbsPath) with
        | none | some .notExist => ⟨removed, .ok ()⟩
        | some err => ⟨removed, .error (.os err)⟩
    | some .notExist =>
        let made := looked ++ [.mkdirAll (pathDir finalAbsPath)]
        match os (.mkdirAll (pathDir finalAbsPath)) with
        | some err => ⟨made, .error (.os err)⟩
        | none =>
            let renamed := made ++ [.rename stagingAbsPath finalAbsPath]
            match os (.rename stagingAbsPath finalAbsPath) with
            | some err => ⟨renamed, .error (.os err)⟩
            | none => ⟨renamed, .ok ()⟩
    | some err => ⟨looked, .error (.os err)⟩

/-- `Open` and `Stat`: one call, whose error is the answer. -/
def LocalStorage.lookup (call : String → FileCall) (relativePath : String) : Outcome Unit :=
  if hasTraversal relativePath then ⟨[], .error .invalidStoragePath⟩
  else
    let made := call (s.absPath relativePath)
    match os made with
    | some err => ⟨[made], .error (.os err)⟩
    | none => ⟨[made], .ok ()⟩

def LocalStorage.open (relativePath : String) : Outcome Unit := s.lookup os .openFile relativePath

def LocalStorage.stat (relativePath : String) : Outcome Unit := s.lookup os .stat relativePath

/-- `Delete`; a file that is not there is deleted. -/
def LocalStorage.delete (relativePath : String) : Outcome Unit :=
  if hasTraversal relativePath then ⟨[], .error .invalidStoragePath⟩
  else
    let absPath := s.absPath relativePath
    match os (.remove absPath) with
    | none | some .notExist => ⟨[.remove absPath], .ok ()⟩
    | some err => ⟨[.remove absPath], .error (.os err)⟩

/-- One call of the store. -/
inductive Operation where
  | stage (stagingPath : String) (turns : List Turn) (sync close : Option OsError)
  | commit (stagingPath finalPath : String)
  | open (relativePath : String)
  | delete (relativePath : String)
  | stat (relativePath : String)

/-- The calls an operation makes on the file system. -/
def LocalStorage.calls : Operation → List FileCall
  | .stage stagingPath turns sync close => (s.stage os sha256 stagingPath turns sync close).calls
  | .commit stagingPath finalPath => (s.commit os stagingPath finalPath).calls
  | .open relativePath => (s.open os relativePath).calls
  | .delete relativePath => (s.delete os relativePath).calls
  | .stat relativePath => (s.stat os relativePath).calls

end Operations

/-! ## Below the root -/

/-- The cleaned root with at least one element behind it, none of them empty, `.` or `..`. -/
def Below (root path : String) : Prop :=
  ∃ rest, GoodSegments rest ∧ path = extend (pathClean root) rest

/-- Files lie below the root; a directory that is made may be the root itself. -/
def Contained (root : String) : FileCall → Prop
  | .mkdirAll path => path = pathClean root ∨ Below root path
  | .createFile path => Below root path
  | .openFile path => Below root path
  | .stat path => Below root path
  | .remove path => Below root path
  | .rename oldPath newPath => Below root oldPath ∧ Below root newPath

variable {root p : String}

/-- The four things a path must not be. -/
theorem hasTraversal_eq_false : hasTraversal p = false ↔
    hasPrefix (pathClean p) "/" = false ∧ pathClean p ≠ "." ∧ pathClean p ≠ ".."
      ∧ hasPrefix (pathClean p) "../" = false := by
  simp [hasTraversal, isAbs, and_assoc]

/-- What the check lets through is joined as its cleaned elements. -/
theorem absPath_eq (habs : isAbs root = true) (h : hasTraversal p = false) :
    (LocalStorage.mk root).absPath p = extend (pathClean root) (pathClean p) := by
  obtain ⟨hrel, hdot, hup, hups⟩ := hasTraversal_eq_false.mp h
  exact filepathJoin_contained habs hrel hdot hup hups

/-- **Joining a path that passes the check** gives a path below the root. -/
theorem absPath_below (habs : isAbs root = true) (h : hasTraversal p = false) :
    Below root ((LocalStorage.mk root).absPath p) := by
  obtain ⟨hrel, hdot, hup, hups⟩ := hasTraversal_eq_false.mp h
  exact ⟨pathClean p, (clean_relative hrel hdot hup hups).2.1, absPath_eq habs h⟩

/-- The directory of a path below the root is the root or lies below it. -/
theorem mkdirAll_contained (habs : isAbs root = true) {path : String} (h : Below root path) :
    Contained root (.mkdirAll (pathDir path)) := by
  obtain ⟨rest, hrest, rfl⟩ := h
  rcases pathDir_extend habs hrest with hroot | ⟨dir, hdir, hbelow⟩
  · exact Or.inl hroot
  · exact Or.inr ⟨dir, hdir, hbelow⟩

section Operations

variable {os : FileCall → Option OsError} {sha256 : List UInt8 → String} {s : LocalStorage}

/-- Every call of `Stage` stays below the root, wherever it fails. -/
theorem stage_contained (habs : isAbs s.root = true) (stagingPath : String) (turns : List Turn)
    (sync close : Option OsError) :
    ∀ call ∈ (s.stage os sha256 stagingPath turns sync close).calls, Contained s.root call := by
  rw [LocalStorage.stage]
  split
  · exact nofun
  next hsafe =>
  have hbelow := absPath_below habs (Bool.eq_false_iff.mpr hsafe)
  have hdir := mkdirAll_contained habs hbelow
  have hmade : ∀ call ∈ [FileCall.mkdirAll (pathDir (s.absPath stagingPath)),
      .createFile (s.absPath stagingPath)], Contained s.root call := by
    simp only [List.mem_cons, List.not_mem_nil, or_false]
    rintro call (rfl | rfl)
    · exact hdir
    · exact hbelow
  -- whatever fails behind the creation removes the file again
  have hremoved : ∀ call ∈ [FileCall.mkdirAll (pathDir (s.absPath stagingPath)),
      .createFile (s.absPath stagingPath)] ++ [.remove (s.absPath stagingPath)],
      Contained s.root call := by
    intro call hcall
    rcases List.mem_append.mp hcall with hcall | hcall
    · exact hmade call hcall
    · rw [List.mem_singleton.mp hcall]
      exact hbelow
  dsimp only
  split
  · intro call hcall
    rw [List.mem_singleton.mp hcall]
    exact hdir
  split
  · exact hmade
  split
  · exact hremoved
  split
  · exact hremoved
  · exact hremoved
  · exact hmade

/-- Every call of `Commit`, both paths of the rename included. -/
theorem commit_contained (habs : isAbs s.root = true) (stagingPath finalPath : String) :
    ∀ call ∈ (s.commit os stagingPath finalPath).calls, Contained s.root call := by
  rw [LocalStorage.commit]
  split
  · exact nofun
  next hsafe =>
  rw [Bool.or_eq_true, not_or, Bool.not_eq_true, Bool.not_eq_true] at hsafe
  have hstaging := absPath_below habs hsafe.1
  have hfinal := absPath_below habs hsafe.2
  -- the calls so far, at each place where `Commit` may end
  have hlooked : ∀ call ∈ [FileCall.stat (s.absPath finalPath)], Contained s.root call := by
    intro call hcall
    rw [List.mem_singleton.mp hcall]
    exact hfinal
  have hmade : ∀ call ∈ [FileCall.stat (s.absPath finalPath)]
      ++ [.mkdirAll (pathDir (s.absPath finalPath))], Contained s.root call := by
    intro call hcall
    rcases List.mem_append.mp hcall with hcall | hcall
    · exact hlooked call hcall
    · rw [List.mem_singleton.mp hcall]
      exact mkdirAll_contained habs hfinal
  have hremoved : ∀ call ∈ [FileCall.stat (s.absPath finalPath)]
      ++ [.remove (s.absPath stagingPath)], Contained s.root call := by
    intro call hcall
    rcases List.mem_append.mp hcall with hcall | hcall
    · exact hlooked call hcall
    · rw [List.mem_singleton.mp hcall]
      exact hstaging
  have hrenamed : ∀ call ∈ [FileCall.stat (s.absPath finalPath)]
      ++ [.mkdirAll (pathDir (s.absPath finalPath))]
      ++ [.rename (s.absPath stagingPath) (s.absPath finalPath)], Contained s.root call := by
    intro call hcall
    rcases List.mem_append.mp hcall with hcall | hcall
    · exact hmade call hcall
    · rw [List.mem_singleton.mp hcall]
      exact ⟨hstaging, hfinal⟩
  dsimp only
  split
  · split
    · exact hremoved
    · exact hremoved
    · exact hremoved
  · split
    · exact hmade
    · split
      · exact hrenamed
      · exact hrenamed
  · exact hlooked

/-- The one call of `Open` and of `Stat`. -/
theorem lookup_contained (habs : isAbs s.root = true) (call : String → FileCall)
    (hcall : ∀ path, Below s.root path → Contained s.root (call path)) (relativePath : String) :
    ∀ made ∈ (s.lookup os call relativePath).calls, Contained s.root made := by
  rw [LocalStorage.lookup]
  split
  · exact nofun
  next hsafe =>
  have hbelow := absPath_below habs (Bool.eq_false_iff.mpr hsafe)
  dsimp only
  split
  all_goals
    intro made hmade
    rw [List.mem_singleton.mp hmade]
    exact hcall _ hbelow

theorem delete_contained (habs : isAbs s.root = true) (relativePath : String) :
    ∀ call ∈ (s.delete os relativePath).calls, Contained s.root call := by
  rw [LocalStorage.delete]
  split
  · exact nofun
  next hsafe =>
  have hbelow := absPath_below habs (Bool.eq_false_iff.mpr hsafe)
  dsimp only
  split
  all_goals
    intro call hcall
    rw [List.mem_singleton.mp hcall]
    exact hbelow

/-- **Every operation** addresses files below the root only. -/
theorem calls_contained (habs : isAbs s.root = true) (op : Operation) :
    ∀ call ∈ s.calls os sha256 op, Contained s.root call := by
  cases op with
  | stage stagingPath turns sync close => exact stage_contained habs stagingPath turns sync close
  | commit stagingPath finalPath => exact commit_contained habs stagingPath finalPath
  | «open» relativePath => exact lookup_contained habs .openFile (fun _ h => h) relativePath
  | delete relativePath => exact delete_contained habs relativePath
  | stat relativePath => exact lookup_contained habs .stat (fun _ h => h) relativePath

end Operations

/-! ## The paths the services make up -/

theorem hexDigit_mem : ∀ n < 16, hexDigit n ∈ "0123456789abcdef".toList := by decide

theorem hexValue_hexDigit : ∀ n < 16, ByteText.hexValue (hexDigit n) = some n := by decide

theorem mem_encodeHex {bytes : List UInt8} {c : Char} (h : c ∈ encodeHex bytes) :
    c ∈ "0123456789abcdef".toList := by
  obtain ⟨b, -, hc⟩ := List.mem_flatMap.mp h
  have hlt := b.toNat_lt
  rcases List.mem_cons.mp hc with rfl | hc
  · exact hexDigit_mem _ (by omega)
  · rw [List.mem_singleton.mp hc]
    exact hexDigit_mem _ (by omega)

/-- Writing two pieces is writing the whole. -/
theorem encodeHex_append (front back : List UInt8) :
    encodeHex (front ++ back) = encodeHex front ++ encodeHex back := List.flatMap_append

/-- The digits tell the bytes. -/
theorem encodeHex_injective : ∀ {xs ys : List UInt8}, encodeHex xs = encodeHex ys → xs = ys
  | [], [], _ => rfl
  | [], _ :: _, h => nomatch h
  | _ :: _, [], h => nomatch h
  | x :: xs, y :: ys, h => by
      obtain ⟨hhigh, h⟩ := List.cons.inj h
      obtain ⟨hlow, h⟩ := List.cons.inj h
      have hx := x.toNat_lt
      have hy := y.toNat_lt
      have hdigit : ∀ m < 16, ∀ n < 16, hexDigit m = hexDigit n → m = n := by
        intro m hm n hn heq
        have hvalue := congrArg ByteText.hexValue heq
        rwa [hexValue_hexDigit m hm, hexValue_hexDigit n hn, Option.some_inj] at hvalue
      have hhigh := hdigit _ (by omega) _ (by omega) hhigh
      have hlow := hdigit _ (by omega) _ (by omega) hlow
      have hxy : x = y := UInt8.toNat_inj.mp (by omega)
      rw [hxy, encodeHex_injective h]

/-- Without its hyphens the text is the digits of all bytes. -/
theorem newFileID_chars (u : Uuid) : (newFileID u).toList = encodeHex u.bytes := by
  have hkeep : ∀ bytes, (encodeHex bytes).filter (· ≠ '-') = encodeHex bytes := by
    intro bytes
    refine List.filter_eq_self.mpr fun c hc => ?_
    have hdigits : ∀ d ∈ "0123456789abcdef".toList, d ≠ '-' := ByteText.forall_chars (by decide)
    exact decide_eq_true (hdigits c (mem_encodeHex hc))
  have hhyphen : ∀ rest : List Char, ('-' :: rest).filter (· ≠ '-') = rest.filter (· ≠ '-') :=
    fun rest => List.filter_cons_of_neg (by decide)
  have hsplit : u.bytes = u.bytes.take 4 ++ ((u.bytes.drop 4).take 2 ++ ((u.bytes.drop 6).take 2
      ++ ((u.bytes.drop 8).take 2 ++ u.bytes.drop 10))) := by
    have hcut : ∀ i j, u.bytes.drop i = (u.bytes.drop i).take j ++ u.bytes.drop (i + j) := by
      intro i j
      rw [← List.drop_drop, List.take_append_drop]
    rw [← hcut 8 2, ← hcut 6 2, ← hcut 4 2, List.take_append_drop]
  rw [newFileID, String.toList_ofList, Uuid.toText, String.toList_ofList]
  simp only [List.filter_append, hhyphen, hkeep]
  rw [← encodeHex_append, ← encodeHex_append, ← encodeHex_append, ← encodeHex_append, ← hsplit]

/-- One element of a path. -/
def Element (name : String) : Prop := '/' ∉ name.toList ∧ badSegment name = false

/-- A name that does not begin with a dot and has no slash is an element. -/
theorem element_of_head {name : String} {c : Char} {rest : List Char} (h : name.toList = c :: rest)
    (hdot : c ≠ '.') (hfree : '/' ∉ name.toList) : Element name := by
  have hother : ∀ other : String, other.toList.head? ≠ some c → name ≠ other := by
    rintro other hhead rfl
    exact hhead (by rw [h]; rfl)
  refine ⟨hfree, ?_⟩
  rw [badSegment, Bool.or_eq_false_iff, Bool.or_eq_false_iff, beq_eq_false_iff_ne,
    beq_eq_false_iff_ne, beq_eq_false_iff_ne]
  exact ⟨⟨hother "" (by simp), hother "." (by simpa using hdot.symm)⟩,
    hother ".." (by simpa using hdot.symm)⟩

/-- Part of an identifier, with an extension behind it. -/
theorem element_of_digits {digits extension : List Char} (hne : digits ≠ [])
    (hdigits : ∀ c ∈ digits, c ∈ "0123456789abcdef".toList) (hext : '/' ∉ extension) :
    Element (String.ofList (digits ++ extension)) := by
  have hplain : ∀ d ∈ "0123456789abcdef".toList, d ≠ '.' ∧ d ≠ '/' :=
    ByteText.forall_chars (by decide)
  obtain ⟨c, rest, rfl⟩ := List.exists_cons_of_ne_nil hne
  refine element_of_head String.toList_ofList (hplain c (hdigits c List.mem_cons_self)).1 ?_
  rw [String.toList_ofList, List.mem_append]
  exact not_or.mpr ⟨fun hc => (hplain _ (hdigits _ hc)).2 rfl, hext⟩

/-- The elements of a made-up path. -/
def managedElements (namesp extension : String) (u : Uuid) : List String :=
  [namesp, slice (newFileID u) 0 2, slice (newFileID u) 2 4, newFileID u ++ extension]

variable {namesp extension : String}

/-- No element is empty, a dot or two dots, and none has a slash. -/
theorem managedElements_ok (hns : Element namesp) (hext : '/' ∉ extension.toList) (u : Uuid) :
    ∀ elem ∈ managedElements namesp extension u, Element elem := by
  obtain ⟨a, b, rest, hbytes⟩ : ∃ a b rest, u.bytes = a :: b :: rest := by
    match h : u.bytes, u.length_eq with
    | a :: b :: rest, _ => exact ⟨a, b, rest, rfl⟩
  have hchars := newFileID_chars u
  have hdigits : ∀ c ∈ (newFileID u).toList, c ∈ "0123456789abcdef".toList := by
    intro c hc
    rw [hchars] at hc
    exact mem_encodeHex hc
  -- a piece of the digits is an element as long as something is in it
  have hslice : ∀ i j, ((newFileID u).toList.take j).drop i ≠ [] →
      Element (slice (newFileID u) i j) := by
    intro i j hne
    have helem := element_of_digits hne (fun c hc =>
      hdigits c (List.mem_of_mem_take (List.mem_of_mem_drop hc))) List.not_mem_nil
    rwa [List.append_nil] at helem
  simp only [managedElements, List.mem_cons, List.not_mem_nil, or_false]
  rintro elem (rfl | rfl | rfl | rfl)
  · exact hns
  · refine hslice 0 2 ?_
    rw [hchars, hbytes]
    exact List.cons_ne_nil _ _
  · refine hslice 2 4 ?_
    rw [hchars, hbytes]
    exact List.cons_ne_nil _ _
  · have hne : (newFileID u).toList ≠ [] := by
      rw [hchars, hbytes]
      exact List.cons_ne_nil _ _
    have helem := element_of_digits hne hdigits hext
    rwa [String.ofList_append, String.ofList_toList, String.ofList_toList] at helem

/-- A managed path is its elements, joined: the cleaning finds nothing to do. -/
theorem newManagedPath_eq (hns : Element namesp) (hext : '/' ∉ extension.toList) (u : Uuid) :
    newManagedPath namesp extension u = joinSegments (managedElements namesp extension u) := by
  have hne : namesp ≠ "" := by
    rintro rfl
    exact Bool.false_ne_true (hns.2.symm.trans rfl)
  have hdrop : (managedElements namesp extension u).dropWhile (· == "")
      = managedElements namesp extension u := by
    rw [managedElements, List.dropWhile_cons_of_neg]
    rwa [beq_iff_eq]
  have hgood := good_joinSegments (managedElements_ok hns hext u) (List.cons_ne_nil _ _)
  show filepathJoin (managedElements namesp extension u) = _
  rw [filepathJoin, hdrop]
  exact pathClean_good hgood.2

/-- A path of good segments passes the check. -/
theorem hasTraversal_good (h : GoodSegments p) : hasTraversal p = false := by
  rw [hasTraversal_eq_false, pathClean_good h]
  refine ⟨hasPrefix_slash_of_good h, ?_, ?_, Bool.eq_false_iff.mpr fun hpfx => ?_⟩
  · rintro rfl
    exact absurd h (by decide)
  · rintro rfl
    exact absurd h (by decide)
  · obtain ⟨rest, hrest⟩ := List.isPrefixOf_iff_prefix.mp hpfx
    have hjoin : p = ".." ++ "/" ++ String.ofList rest := by
      rw [← String.toList_inj, ← hrest]
      simp
    rw [hjoin] at h
    exact absurd (goodSegments_join.mp h).1 (by decide)

/-- The extension hides no part of the name. -/
theorem extend_injective {r a b : String} (h : extend r a = extend r b) : a = b := by
  rw [extend, extend] at h
  rw [← String.toList_inj] at h ⊢
  split at h
  · simp only [String.toList_append] at h
    exact List.append_cancel_left h
  · simp only [String.toList_append] at h
    exact List.append_cancel_left h

/-- Different identifiers have different texts. -/
theorem newFileID_injective {u v : Uuid} (h : newFileID u = newFileID v) : u = v := by
  have hbytes : u.bytes = v.bytes := by
    refine encodeHex_injective ?_
    rw [← newFileID_chars, ← newFileID_chars, h]
  cases u
  cases v
  cases hbytes
  rfl

/-- The namespaces are elements and the extensions have no slash. -/
theorem managedKinds_ok : ∀ kind ∈ managedKinds,
    Element kind.1 ∧ '/' ∉ kind.2.toList := by
  simp only [managedKinds, List.mem_cons, List.not_mem_nil, or_false]
  rintro kind (rfl | rfl)
  · exact ⟨⟨by decide, by decide⟩, by decide⟩
  · exact ⟨⟨by decide, by decide⟩, by decide⟩

/-- A namespace has one extension. -/
theorem managedKinds_functional {kind other : String × String} (hkind : kind ∈ managedKinds)
    (hother : other ∈ managedKinds) (h : kind.1 = other.1) : kind = other := by
  simp only [managedKinds, List.mem_cons, List.not_mem_nil, or_false] at hkind hother
  rcases hkind with rfl | rfl
  · rcases hother with rfl | rfl
    · rfl
    · exact absurd h (by decide)
  · rcases hother with rfl | rfl
    · exact absurd h (by decide)
    · rfl

/-- **Managed paths stay inside the storage root.**  A path that passes the check is
    joined below the cleaned root, no operation of the store addresses a file outside
    it, and the paths the services make up pass the check and are told apart by their
    identifiers. -/
theorem managed_paths_contained (habs : isAbs root = true) :
    (∀ path, hasTraversal path = false → Below root (filepathJoin [root, fromSlash path]))
    ∧ (∀ os sha256 op, ∀ call ∈ (LocalStorage.mk root).calls os sha256 op, Contained root call)
    ∧ (∀ kind ∈ managedKinds, ∀ u, hasTraversal (newManagedPath kind.1 kind.2 u) = false)
    ∧ ∀ kind ∈ managedKinds, ∀ other ∈ managedKinds, ∀ u v,
        filepathJoin [root, fromSlash (newManagedPath kind.1 kind.2 u)]
          = filepathJoin [root, fromSlash (newManagedPath other.1 other.2 v)] →
            kind = other ∧ u = v := by
  have haccepted : ∀ kind ∈ managedKinds, ∀ u,
      GoodSegments (newManagedPath kind.1 kind.2 u)
        ∧ segments (newManagedPath kind.1 kind.2 u) = managedElements kind.1 kind.2 u := by
    intro kind hkind u
    obtain ⟨hns, hext⟩ := managedKinds_ok kind hkind
    rw [newManagedPath_eq hns hext]
    exact (good_joinSegments (managedElements_ok hns hext u) (List.cons_ne_nil _ _)).symm
  refine ⟨fun path hpath => absPath_below habs hpath, fun os sha256 op => calls_contained habs op,
    fun kind hkind u => hasTraversal_good (haccepted kind hkind u).1, ?_⟩
  intro kind hkind other hother u v heq
  obtain ⟨hgood, hsegs⟩ := haccepted kind hkind u
  obtain ⟨hgood', hsegs'⟩ := haccepted other hother v
  have hpaths : newManagedPath kind.1 kind.2 u = newManagedPath other.1 other.2 v := by
    have hu := absPath_eq habs (hasTraversal_good hgood)
    have hv := absPath_eq habs (hasTraversal_good hgood')
    rw [pathClean_good hgood] at hu
    rw [pathClean_good hgood'] at hv
    exact extend_injective (hu.symm.trans (heq.trans hv))
  have helems : managedElements kind.1 kind.2 u = managedElements other.1 other.2 v := by
    rw [← hsegs, ← hsegs', hpaths]
  obtain ⟨hns, helems⟩ := List.cons.inj helems
  obtain ⟨-, helems⟩ := List.cons.inj helems
  obtain ⟨-, helems⟩ := List.cons.inj helems
  obtain ⟨hname, -⟩ := List.cons.inj helems
  have hkinds := managedKinds_functional hkind hother hns
  refine ⟨hkinds, newFileID_injective ?_⟩
  rw [hkinds, ← String.toList_inj, String.toList_append, String.toList_append] at hname
  exact String.toList_inj.mp (List.append_cancel_right hname)

/-- The store at `/data//oss/`, and a path with dots in it. -/
theorem managed_paths_contained_data :
    hasTraversal "objects/./a//b.bin" = false
      ∧ Below "/data//oss/" (filepathJoin ["/data//oss/", fromSlash "objects/./a//b.bin"]) := by
  have hsafe : hasTraversal "objects/./a//b.bin" = false := by decide
  exact ⟨hsafe, (managed_paths_contained rfl).1 _ hsafe⟩

end ManagedPaths
