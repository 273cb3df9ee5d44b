import LightOss.RequestRows
import LightOss.ObjectKeys
import LightOss.FolderScope

/-! # Addressable objects — every stored key passes the check of the read paths

    Three write paths check the key they store.  `CreateFolder` and `PublishFile`
    check its parts only.  The parts and the whole agree unless the prefix is a bare
    slash, `..` stands inside a part, or the joined key is over the byte limit.

    What each of the two paths leaves to check is exact (`createFolderKey_iff`,
    `publishFileKey_iff`).  `KeysKnown` is the invariant of the keys in both tables,
    kept by every request whose parts join (`known_of_writes`, `keysKnown_of_run`); an
    accepted key is refused by none of the read paths (`served_of_accepted`), and an
    upload of one succeeds (`upload_succeeds`). -/

namespace Addressable

open KeyedTable Fallible LedgerRows Catalog Validation MetadataServices CatalogSpecs
open BatchPublication ObjectServices RequestRows ObjectKeys

variable {k : Collation} {c c' : Tables k}

/-! ## Signing -/

/-- `SignService`, with the signer, `url.PathEscape` and `Values.Encode` it calls. -/
structure SignService where
  signDownload : String → String → Int → String
  pathEscape : String → String
  encodeValues : Int → String → String
  defaultTTL : Int
  maxTTL : Int

/-- `time.Duration(seconds) * time.Second`: nanoseconds beyond `int64` wrap around. -/
def seconds (n : Int) : Duration := (n * 1000000000).bmod (2 ^ 64)

/-- `Time.Unix`. -/
def unixSeconds (t : Time) : Int := (t / 1000000000).bmod (2 ^ 64)

/-- `GenerateDownloadPath` at time `now`. -/
def generateDownloadPath (s : SignService) (bucketName objectKey : String)
    (expiresInSeconds : Int) (now : Time) : Except Err (String × Int) := do
  validateBucketName bucketName
  validateObjectKey objectKey
  let expiresInSeconds := if expiresInSeconds ≤ 0 then s.defaultTTL else expiresInSeconds
  ensure (expiresInSeconds ≤ s.maxTTL)
    (.app 400 "invalid_expiry" "expires_in_seconds exceeds maximum")
  let expiresAt := unixSeconds (now + seconds expiresInSeconds)
  let signature := s.signDownload bucketName objectKey expiresAt
  let path := "/api/v1/buckets/" ++ bucketName ++ "/objects/"
    ++ joinSegments ((segments objectKey).map s.pathEscape)
  return (path ++ "?" ++ s.encodeValues expiresAt signature, expiresAt)

/-! ## The read paths of an accepted key -/

/-- The request failed because of the key's shape. -/
def KeyRefused (err : Err) : Prop := ∃ message, err = invalidObjectKey message

/-- No read path, delete or signing refuses the key for its shape. -/
structure Served (c : Tables k) (objectKey : String) : Prop where
  getMetadata : ∀ bucketName,
    FailsOnly (¬ KeyRefused ·) (getMetadata c bucketName objectKey)
  updateVisibility : ∀ bucketName visibility now,
    FailsOnly (¬ KeyRefused ·)
      (ObjectServices.updateVisibility c bucketName objectKey visibility now)
  delete : ∀ bucketName deletedAt group,
    FailsOnly (¬ KeyRefused ·) (delete c bucketName objectKey deletedAt group)
  generateDownloadPath : ∀ s bucketName expiresInSeconds now,
    FailsOnly (¬ KeyRefused ·) (generateDownloadPath s bucketName objectKey expiresInSeconds now)

/-- An error under another code does not refuse the key. -/
theorem not_keyRefused_app {status : Nat} {code message : String}
    (h : code ≠ "invalid_object_key") :
    ¬ KeyRefused (.app status code message) := by
  rintro ⟨_, heq⟩
  exact h (Err.app.inj heq).2.1

/-- An error that is no answer of the API says nothing about the key. -/
theorem not_keyRefused_internal {err : Err}
    (h : ∀ status code message, err ≠ .app status code message) : ¬ KeyRefused err := by
  rintro ⟨_, heq⟩
  exact h _ _ _ heq

/-- The check of a bucket's name does not refuse the key. -/
theorem failsOnly_bucketName (bucketName : String) :
    FailsOnly (¬ KeyRefused ·) (validateBucketName bucketName) :=
  failsOnly_ensure (not_keyRefused_app (by decide))

/-- Reading a visibility does not refuse the key. -/
theorem failsOnly_visibility (value : String) :
    FailsOnly (¬ KeyRefused ·) (parseVisibility value) := by
  rw [parseVisibility]
  split
  · exact failsOnly_ok _
  · split
    · exact failsOnly_ok _
    · exact failsOnly_error (not_keyRefused_app (by decide))

/-- What the transaction of a delete reports is never about the key. -/
theorem failsOnly_deleteObject (bucketName objectKey : String) (deletedAt : Time) (group : String) :
    FailsOnly (¬ KeyRefused ·) (deleteObject c bucketName objectKey deletedAt group) := by
  rw [deleteObject]
  refine FailsOnly.mapError (P := (¬ KeyRefused ·)) ?_ fun e he => ?_
  · have hmissing : ¬ KeyRefused .recordNotFound :=
      not_keyRefused_internal fun _ _ _ h => by cases h
    refine failsOnly_bind (failsOnly_orElseThrow hmissing) fun object _ => ?_
    refine failsOnly_bind (failsOnly_mapError fun _ =>
      not_keyRefused_internal fun _ _ _ h => by cases h) fun m _ => ?_
    exact failsOnly_bind (failsOnly_ensure hmissing) fun _ _ => failsOnly_ok _
  · cases e with
    | recordNotFound => exact not_keyRefused_app (by decide)
    | app status code message => exact he
    | _ => exact not_keyRefused_internal fun _ _ _ h => by cases h

/-- A key that passes the check is refused by none of the read paths. -/
theorem served_of_accepted {objectKey : String} (h : validateObjectKey objectKey = .ok ()) :
    Served c objectKey := by
  have hvalid : FailsOnly (¬ KeyRefused ·) (validateObjectKey objectKey) := h ▸ failsOnly_ok ()
  refine ⟨fun bucketName => ?_, fun bucketName visibility now => ?_,
    fun bucketName deletedAt group => ?_, fun s bucketName expiresInSeconds now => ?_⟩
  · rw [ObjectServices.getMetadata]
    refine failsOnly_bind (failsOnly_bucketName bucketName) fun _ _ => ?_
    refine failsOnly_bind hvalid fun _ _ => ?_
    exact failsOnly_mapError fun _ => not_keyRefused_app (by decide)
  · rw [ObjectServices.updateVisibility]
    refine failsOnly_bind (failsOnly_bucketName bucketName) fun _ _ => ?_
    refine failsOnly_bind hvalid fun _ _ => ?_
    refine failsOnly_bind (failsOnly_visibility visibility) fun _ _ => ?_
    exact failsOnly_mapError fun _ => not_keyRefused_app (by decide)
  · rw [ObjectServices.delete]
    refine failsOnly_bind (failsOnly_bucketName bucketName) fun _ _ => ?_
    refine failsOnly_bind hvalid fun _ _ => ?_
    exact failsOnly_deleteObject bucketName objectKey deletedAt group
  · rw [Addressable.generateDownloadPath]
    refine failsOnly_bind (failsOnly_bucketName bucketName) fun _ _ => ?_
    refine failsOnly_bind hvalid fun _ _ => ?_
    dsimp only
    refine failsOnly_bind (failsOnly_ensure (not_keyRefused_app (by decide))) fun _ _ => ?_
    exact failsOnly_ok _

/-! ## Uploads into a folder -/

/-- An overwriting insert succeeds in a bucket that exists. -/
theorem upsertRow_succeeds (hok : CatalogOk c) {object : Object}
    (hbucket : bucketExists c object.bucketName = true) (now : Time) :
    ∃ c', upsertRow now c object = .ok c' := by
  rw [upsertRow]
  split
  · exact ⟨_, rfl⟩
  · next hfree =>
      refine insertObject_fits hok.ids ?_ ?_
      · exact hbucket
      · exact fun o ho => Bool.eq_false_iff.mpr fun hkey =>
          hfree (List.any_eq_true.mpr ⟨o, ho, hkey⟩)

/-- The row that an upsert reads back is there. -/
theorem findActive_of_upsertRow {object : Object} {now : Time}
    (h : upsertRow now c object = .ok c') :
    ∃ o, findActive c' object.bucketName object.objectKey = .ok o := by
  have hrow : ∃ o ∈ c'.objects.rows,
      sameKey k object.bucketName object.objectKey o = true := by
    rcases (upsertRow_ok h).2 with ⟨hne, hrows⟩ | ⟨-, -, hrows⟩
    · obtain ⟨o, ho⟩ := List.exists_mem_of_ne_nil _ hne
      obtain ⟨ho, hkey⟩ := Table.mem_select.mp ho
      refine ⟨upserted k now object o, hrows ▸ List.mem_map_of_mem ho, ?_⟩
      rw [upserted, if_pos hkey]
      exact hkey
    · refine ⟨_, hrows ▸ List.mem_append_right _ List.mem_cons_self, ?_⟩
      rw [sameKey, Collation.eq_refl, Collation.eq_refl]
      rfl
  obtain ⟨o, ho, hkey⟩ := hrow
  cases hfind : c'.objects.first? (sameKey k object.bucketName object.objectKey) with
  | none => exact absurd hkey (Bool.eq_false_iff.mp (Table.first?_eq_none.mp hfind o ho))
  | some a => exact ⟨a, orElseThrow_eq_ok.mpr hfind⟩

/-- Looking up the row to replace does not fail. -/
theorem replacedPath_succeeds (c : Tables k) (bucketName objectKey : String) :
    ∃ released, replacedPath c bucketName objectKey = .ok released := by
  rw [replacedPath, findActive]
  cases c.objects.first? (sameKey k bucketName objectKey) with
  | none => exact ⟨[], rfl⟩
  | some existing => exact ⟨[existing.storagePath], rfl⟩

/-- The transaction of an upload succeeds when it may overwrite or finds the key free. -/
theorem uploadMetadata_succeeds (hok : CatalogOk c) (object : Object) {allowOverwrite : Bool}
    (hbucket : bucketExists c object.bucketName = true)
    (hfree : allowOverwrite = true ∨ existsActive c object.bucketName object.objectKey = false)
    (now : Time) : ∃ c' released,
        uploadMetadata object allowOverwrite now c = .ok (c', released) := by
  rw [uploadMetadata]
  cases allowOverwrite with
  | true =>
      obtain ⟨m, hm⟩ := upsertRow_succeeds hok hbucket now
      obtain ⟨o, ho⟩ := findActive_of_upsertRow hm
      obtain ⟨released, hreleased⟩ := replacedPath_succeeds c object.bucketName object.objectKey
      refine ⟨m, released, bind_eq_ok.mpr ⟨released, hreleased, ?_⟩⟩
      refine bind_eq_ok.mpr ⟨m, mapError_eq_ok.mpr ?_, rfl⟩
      exact bind_eq_ok.mpr ⟨m, hm, bind_eq_ok.mpr ⟨o, ho, rfl⟩⟩
  | false =>
      have hnone : c.objects.count (sameKey k object.bucketName object.objectKey) = 0 := by
        have hexists := hfree.resolve_left Bool.false_ne_true
        rw [existsActive, decide_eq_false_iff_not] at hexists
        exact Nat.eq_zero_of_not_pos hexists
      have hrows := List.filter_eq_nil_iff.mp (List.length_eq_zero_iff.mp hnone)
      obtain ⟨m, hm⟩ : ∃ m, create c object now = .ok m := by
        refine insertObject_fits hok.ids ?_ fun o ho => ?_
        · exact hbucket
        · exact Bool.eq_false_iff.mpr (hrows o ho)
      exact ⟨m, [], bind_eq_ok.mpr ⟨m, mapError_eq_ok.mpr hm, rfl⟩⟩

/-- **An upload** of an accepted key into a bucket that exists succeeds. -/
theorem upload_succeeds (hok : CatalogOk c) {input : UploadObjectInput}
    (hname : validateBucketName input.bucketName = .ok ())
    (hkey : validateUserObjectKey input.objectKey = .ok ())
    {visibility : Visibility} (hvisibility : parseVisibility input.visibility = .ok visibility)
    (hbucket : bucketExists c input.bucketName = true)
    (hfree : input.allowOverwrite = true
      ∨ existsActive c input.bucketName input.objectKey = false)
    (staged : StagedBlob) (now : Time) : ∃ c', upload c input staged now = .ok c' := by
  obtain ⟨m, released, hm⟩ := uploadMetadata_succeeds hok (stagedObject input.bucketName
    input.objectKey input.originalFilename input.contentType visibility staged) hbucket hfree now
  refine ⟨m, ?_⟩
  rw [upload]
  refine bind_eq_ok.mpr ⟨(), hname, bind_eq_ok.mpr ⟨(), hkey, ?_⟩⟩
  refine bind_eq_ok.mpr ⟨visibility, hvisibility, bind_eq_ok.mpr ⟨(), ?_, ?_⟩⟩
  · exact ensure_eq_ok.mpr hbucket
  refine bind_eq_ok.mpr ⟨(), ensure_eq_ok.mpr hfree, ?_⟩
  exact bind_eq_ok.mpr ⟨(m, released), hm, rfl⟩

/-! ## The keys that are joined from parts -/

/-- The check of an upload is the check of the read paths and one more. -/
theorem validateUserObjectKey_iff {key : String} :
    validateUserObjectKey key = .ok () ↔ Accepted key ∧ isFolderMarkerKey key = false := by
  rw [validateUserObjectKey]
  constructor
  · intro h
    obtain ⟨_, hkey, hmarker⟩ := bind_eq_ok.mp h
    exact ⟨validateObjectKey_iff.mp hkey, ensure_eq_ok.mp hmarker⟩
  · rintro ⟨hkey, hmarker⟩
    exact bind_eq_ok.mpr ⟨(), validateObjectKey_iff.mpr hkey, ensure_eq_ok.mpr hmarker⟩

/-- What the two paths leave to check of a prefix. -/
def PrefixJoins (pfx : String) : Prop := pfx ≠ "/" ∧ contains pfx ".." = false

/-- What `CreateFolder` leaves to check. -/
def FolderJoins (input : CreateFolderInput) : Prop :=
  PrefixJoins input.pfx ∧ contains input.name ".." = false
    ∧ (createFolderKey input).utf8ByteSize ≤ 512

/-- What `PublishFile` leaves to check. -/
def FileJoins (input : PublishSiteInput) (filename : String) : Prop :=
  ∀ parentPrefix fileName, normalizePublishParentPrefix input.parentPrefix = .ok parentPrefix →
    normalizePublishFileName filename = .ok fileName →
      PrefixJoins parentPrefix ∧ (parentPrefix ++ fileName).utf8ByteSize ≤ 512

/-- The parts of the key, where a request joins one unchecked, fit together. -/
def KeyJoins : Request → Prop
  | .createFolder input _ _ => FolderJoins input
  | .publishFile input filename _ _ _ => FileJoins input filename
  | _ => True

/-- No accepted key starts with a slash. -/
theorem not_slash_of_accepted {rest : String} : ¬ Accepted ("/" ++ rest) := by
  intro h
  have hsegs : GoodSegments ("" ++ "/" ++ rest) := h.segs
  exact absurd (goodSegments_join.mp hsegs).1 (by decide)

/-- The marker of a new folder is an accepted key exactly when the parts join. -/
theorem createFolderKey_iff {input : CreateFolderInput}
    (hpfx : validateFolderPrefix input.pfx = .ok ())
    (hname : validateFolderName input.name = .ok ()) :
    Accepted (createFolderKey input) ↔ FolderJoins input := by
  have hmarker : Accepted folderMarkerFilename := validateObjectKey_iff.mp (by decide)
  by_cases hroot : input.pfx = "/"
  · constructor
    · intro h
      rw [createFolderKey, hroot, String.append_assoc, String.append_assoc] at h
      exact absurd h not_slash_of_accepted
    · exact fun h => absurd hroot h.1.1
  · have hfolder := folder_of_validateFolderPrefix hpfx hroot
    rw [createFolderKey, accepted_join (hfolder.child hname) hmarker, ← Bool.not_eq_true,
      dots_child hfolder, not_or, Bool.not_eq_true, Bool.not_eq_true, and_assoc]
    exact ⟨fun h => ⟨⟨hroot, h.1⟩, h.2⟩, fun h => ⟨h.1.2, h.2⟩⟩

/-- A parent prefix that is accepted is a folder prefix. -/
theorem normalizePublishParentPrefix_ok {value pfx : String}
    (h : normalizePublishParentPrefix value = .ok pfx) : validateFolderPrefix pfx = .ok () := by
  rw [normalizePublishParentPrefix] at h
  dsimp only at h
  split at h
  · cases pure_eq_ok.mp h
    decide
  · obtain ⟨_, hvalid, h⟩ := bind_eq_ok.mp h
    cases pure_eq_ok.mp h
    exact hvalid

/-- A file name that is accepted is a key of its own. -/
theorem normalizePublishFileName_ok {value name : String}
    (h : normalizePublishFileName value = .ok name) : validateUserObjectKey name = .ok () := by
  rw [normalizePublishFileName] at h
  obtain ⟨_, -, h⟩ := bind_eq_ok.mp h
  obtain ⟨_, hvalid, h⟩ := bind_eq_ok.mp h
  cases pure_eq_ok.mp h
  exact mapError_eq_ok.mp hvalid

/-- The key of a published file is an accepted one exactly when the parts join. -/
theorem publishFileKey_iff {pfx name : String} (hpfx : validateFolderPrefix pfx = .ok ())
    (hname : validateUserObjectKey name = .ok ()) :
    validateUserObjectKey (pfx ++ name) = .ok ()
      ↔ PrefixJoins pfx ∧ (pfx ++ name).utf8ByteSize ≤ 512 := by
  obtain ⟨hname, hmarker⟩ := validateUserObjectKey_iff.mp hname
  rw [validateUserObjectKey_iff]
  by_cases hroot : pfx = "/"
  · rw [hroot]
    exact ⟨fun h => absurd h.1 not_slash_of_accepted, fun h => absurd rfl h.1.1⟩
  · have hfolder := folder_of_validateFolderPrefix hpfx hroot
    rw [accepted_join hfolder hname, isFolderMarkerKey, pathBase_join hfolder hname.segs]
    exact ⟨fun h => ⟨⟨hroot, h.1.1⟩, h.1.2⟩, fun h => ⟨⟨h.1.2, h.2⟩, hmarker⟩⟩

/-! ## Every run -/

/-- The key passes the whole-key check, and the user's check too unless it is the
    marker of a folder that one of the requests creates. -/
def Known (requests : List Request) (key : String) : Prop :=
  validateObjectKey key = .ok ()
    ∧ (validateUserObjectKey key = .ok ()
      ∨ ∃ input staged now, Request.createFolder input staged now ∈ requests
        ∧ key = createFolderKey input)

/-- The invariant: object rows, and the rows a restore would bring back. -/
structure KeysKnown (requests : List Request) (c : Tables k) : Prop where
  objects : ∀ o ∈ c.objects.rows, Known requests o.objectKey
  recycled : ∀ r ∈ c.recycleBin.rows, shouldSkipRecycleBinRestoreItem r = false →
    Known requests r.objectKey

/-- The key of an upload is known to be accepted. -/
theorem known_of_user {requests : List Request} {key : String}
    (h : validateUserObjectKey key = .ok ()) : Known requests key :=
  ⟨validateObjectKey_iff.mpr (validateUserObjectKey_iff.mp h).1, Or.inl h⟩

/-- A request whose parts join writes known keys. -/
theorem known_of_writes {requests : List Request} {request : Request} (hmem : request ∈ requests)
    (hjoins : KeyJoins request) {key : String} (h : Writes request key) : Known requests key := by
  cases request with
  | upload input staged now => exact known_of_user h.2
  | uploadBatch input stagedBlobs now => exact known_of_user h
  | publishSite input items stagedBlobs now => exact known_of_user h
  | createFolder input staged now =>
      obtain ⟨rfl, hpfx, hname⟩ := h
      have hkey := (createFolderKey_iff hpfx hname).mpr hjoins
      exact ⟨validateObjectKey_iff.mpr hkey, Or.inr ⟨input, staged, now, hmem, rfl⟩⟩
  | publishFile input filename contentType staged now =>
      obtain ⟨parentPrefix, fileName, hpfx, hname, rfl⟩ := h
      exact known_of_user ((publishFileKey_iff (normalizePublishParentPrefix_ok hpfx)
        (normalizePublishFileName_ok hname)).mpr (hjoins parentPrefix fileName hpfx hname))
  | _ => exact h.elim

/-- A request keeps this of the keys: the ones it adds are known. -/
theorem KeysKnown.derives {requests : List Request} {K P : String → Prop}
    (h : KeysKnown requests c) (hd : Derives c c' K P) (hK : ∀ key, K key → Known requests key) :
    KeysKnown requests c' := by
  obtain ⟨hobjects, hrecycled⟩ := hd.keys h.objects h.recycled hK
  exact ⟨hobjects, hrecycled⟩

/-- **The run lemma**: every key of a run is accepted or joined from parts that were. -/
theorem keysKnown_of_run {requests : List Request} (hstart : (requestSystem k).start c)
    (hrun : StepSystem.Run (requestSystem k) c requests c')
    (hjoins : ∀ request ∈ requests, KeyJoins request) : KeysKnown requests c' := by
  refine hrun.along (P := KeysKnown requests) ?_ ?_
  · rintro request hmem s t hs ⟨-, hok | rfl⟩
    · exact hs.derives (request_derives hok) fun _ hkey =>
        known_of_writes hmem (hjoins request hmem) hkey
    · exact hs
  · rw [hstart]
    exact ⟨nofun, nofun⟩

/-- The root of a bucket, or what stands before a slash in a key of it. -/
def ExistingFolder (c : Tables k) (bucketName folder : String) : Prop :=
  folder = "" ∨ (hasSuffix folder "/" = true ∧ ∃ o ∈ c.objects.rows,
    k.eq o.bucketName bucketName = true ∧ hasPrefix o.objectKey folder = true)

/-- The file can be uploaded into the folder, by its whole key or in a batch. -/
structure Uploadable (c : Tables k) (bucketName folder name : String) : Prop where
  upload : ∀ input staged now visibility, input.bucketName = bucketName →
    input.objectKey = folder ++ name → validateBucketName bucketName = .ok () →
    parseVisibility input.visibility = .ok visibility → bucketExists c bucketName = true →
    (input.allowOverwrite = true ∨ existsActive c bucketName (folder ++ name) = false) →
      ∃ c', upload c input staged now = .ok c'
  uploadBatch : validateFolderPrefix folder = .ok () ∧ ∀ item : UploadObjectBatchItemInput,
    item.relativePath = name → ∃ prepared, prepareItems folder [] [item] = .ok prepared

/-- A text with a prefix is that prefix and a rest. -/
theorem exists_rest {s pfx : String} (h : hasPrefix s pfx = true) : ∃ rest, s = pfx ++ rest := by
  obtain ⟨rest, hrest⟩ := hasPrefix_iff.mp h
  refine ⟨String.ofList rest, String.toList_inj.mp ?_⟩
  rw [String.toList_append, String.toList_ofList]
  exact hrest.symm

/-- A folder that exists is a prefix of a known key, so its path is accepted. -/
theorem folder_of_existing {requests : List Request} (h : KeysKnown requests c)
    {bucketName folder : String} (hexists : ExistingFolder c bucketName folder) :
    Folder folder ∧ contains folder ".." = false := by
  rcases hexists with rfl | ⟨hsfx, o, ho, -, hpfx⟩
  · exact ⟨⟨Or.inl rfl, nofun, nofun⟩, by decide⟩
  · obtain ⟨rest, hkey⟩ := exists_rest hpfx
    have haccepted := validateObjectKey_iff.mp (h.objects o ho).1
    rw [hkey] at haccepted
    exact folder_of_accepted haccepted (Or.inr hsfx)

/-- A file can be uploaded into it unless the joined key is too long. -/
theorem uploadable_of_folder (hok : CatalogOk c) {bucketName folder name : String}
    (hfolder : Folder folder) (hdots : contains folder ".." = false)
    (hname : validateUserObjectKey name = .ok ()) (hsize : (folder ++ name).utf8ByteSize ≤ 512) :
    Uploadable c bucketName folder name := by
  obtain ⟨haccepted, hmarker⟩ := validateUserObjectKey_iff.mp hname
  have hkey : validateUserObjectKey (folder ++ name) = .ok () := by
    rw [validateUserObjectKey_iff, accepted_join hfolder haccepted, isFolderMarkerKey,
      pathBase_join hfolder haccepted.segs]
    exact ⟨⟨hdots, hsize⟩, hmarker⟩
  refine ⟨?_, ?_, ?_⟩
  · rintro input staged now visibility rfl hinput hbucket hvisibility hexists hfree
    exact upload_succeeds hok hbucket (hinput ▸ hkey) hvisibility hexists
      (hinput ▸ hfree) staged now
  · refine validateFolderPrefix_of_folder hfolder (Nat.le_trans ?_ hsize)
    rw [String.utf8ByteSize_append]
    exact Nat.le_add_right _ _
  · rintro item rfl
    have hslash : hasPrefix item.relativePath "/" = false := by
      refine Bool.eq_false_iff.mpr fun hpfx => ?_
      obtain ⟨rest, hjoin⟩ := exists_rest hpfx
      rw [hjoin] at haccepted
      exact not_slash_of_accepted haccepted
    have hrelative : validateUploadRelativePath item.relativePath = .ok () := by
      refine bind_eq_ok.mpr ⟨(), ensure_eq_ok.mpr (trimSpace_ne_empty.mpr haccepted.visible), ?_⟩
      exact bind_eq_ok.mpr ⟨(), ensure_eq_ok.mpr hslash, hname⟩
    refine ⟨[{ item := item, objectKey := folder ++ item.relativePath }], ?_⟩
    rw [prepareItems]
    refine bind_eq_ok.mpr ⟨(), mapError_eq_ok.mpr hrelative, ?_⟩
    refine bind_eq_ok.mpr ⟨(), mapError_eq_ok.mpr hkey, ?_⟩
    refine bind_eq_ok.mpr ⟨(), ensure_eq_ok.mpr ?_, ?_⟩
    · exact List.not_mem_nil
    · exact bind_eq_ok.mpr ⟨[], rfl, rfl⟩

/-- **Stored objects stay addressable.**  In every run whose requests join only parts
    that fit together, every object row has a key the read paths accept, and every
    file with an accepted name can be uploaded into every folder there is. -/
theorem stored_objects_addressable {requests : List Request}
    (hstart : (requestSystem k).start c)
    (hrun : StepSystem.Run (requestSystem k) c requests c')
    (hjoins : ∀ request ∈ requests, KeyJoins request) :
    (∀ o ∈ c'.objects.rows, Known requests o.objectKey ∧ Served c' o.objectKey)
    ∧ ∀ bucketName folder name, ExistingFolder c' bucketName folder →
      validateUserObjectKey name = .ok () → (folder ++ name).utf8ByteSize ≤ 512 →
        Uploadable c' bucketName folder name := by
  have hknown := keysKnown_of_run hstart hrun hjoins
  have hok := catalogOk_of_reachable (hrun.reachable (.start hstart))
  refine ⟨fun o ho => ?_, fun bucketName folder name hexists hname hsize => ?_⟩
  · exact ⟨hknown.objects o ho, served_of_accepted (hknown.objects o ho).1⟩
  · obtain ⟨hfolder, hdots⟩ := folder_of_existing hknown hexists
    exact uploadable_of_folder hok hfolder hdots hname hsize

/-! ## A folder with two dots in its name -/

/-- The request that creates the bucket of the examples below. -/
def createPhotos : Request := .createBucket "photos"

/-- The staged file of a marker. -/
def stagedMarker : StagedBlob :=
  { id := "m", storagePath := "objects/m", stagingPath := "", size := 0 }

/-- A folder at the top of the bucket. -/
def newFolder (name : String) : CreateFolderInput :=
  { bucketName := "photos", pfx := "", name := name }

/-- The tables after that. -/
def emptyPhotos : Tables Collation.binary where
  buckets := Table.single { id := 1, name := "photos" }
  nextBucketID := 2

/-- The bucket with the marker of one folder in it. -/
def oneMarker (name : String) : Tables Collation.binary where
  buckets := emptyPhotos.buckets
  objects := ⟨[{ stagedObject "photos" (createFolderKey (newFolder name)) folderMarkerFilename
    "application/x-directory" .visibilityPrivate stagedMarker with id := 1 }],
    List.pairwise_singleton _ _⟩
  nextBucketID := 2
  nextObjectID := 2

theorem run_oneMarker {name : String} (hname : validateFolderName name = .ok ()) :
    StepSystem.Run (requestSystem Collation.binary) {}
      [createPhotos, .createFolder (newFolder name) stagedMarker 0] (oneMarker name) := by
  refine .cons (t := emptyPhotos) ⟨nofun, Or.inl rfl⟩ (.cons ⟨?_, Or.inl ?_⟩ (.nil _))
  · intro staged hmem
    rw [List.mem_singleton.mp hmem]
    decide
  · have hbucket : validateBucketName "photos" = .ok () := ensure_eq_ok.mpr (by decide)
    have hpfx : validateFolderPrefix "" = .ok () := by decide
    have hexists : bucketExists emptyPhotos "photos" = true := by decide
    refine bind_eq_ok.mpr ⟨(), hbucket, bind_eq_ok.mpr ⟨(), hpfx, bind_eq_ok.mpr ⟨(), hname, ?_⟩⟩⟩
    refine bind_eq_ok.mpr ⟨(), ensure_eq_ok.mpr hexists, ?_⟩
    refine bind_eq_ok.mpr ⟨(), ensure_eq_ok.mpr (Or.inl rfl), ?_⟩
    refine bind_eq_ok.mpr ⟨(), ensure_eq_ok.mpr rfl, ?_⟩
    refine bind_eq_ok.mpr ⟨(oneMarker name, []), bind_eq_ok.mpr ⟨oneMarker name, ?_, rfl⟩, rfl⟩
    refine mapError_eq_ok.mpr ?_
    exact (if_pos hexists).trans rfl

/-! ## A bucket with files in and beside the folder -/

/-- A staged file of one byte. -/
def uploadedBlob (name : String) : StagedBlob :=
  { id := name, storagePath := "objects/" ++ name, stagingPath := "", size := 1 }

/-- A file in `docs`, one in a folder below it and one beside it. -/
def docsUpload : UploadObjectBatchInput where
  bucketName := "photos"
  pfx := ""
  visibility := "private"
  allowOverwrite := false
  items := [⟨"docs/a.txt", "a.txt", "text/plain"⟩, ⟨"docs/sub/b.txt", "b.txt", "text/plain"⟩,
    ⟨"other/c.txt", "c.txt", "text/plain"⟩]

/-- The request that uploads three files, two of them below `docs`. -/
def uploadDocs : Request :=
  .uploadBatch docsUpload [uploadedBlob "a.txt", uploadedBlob "b.txt", uploadedBlob "c.txt"] 0

/-- The row of one of them. -/
def uploadedRow (id : Nat) (key name : String) : Object :=
  { stagedObject "photos" key name "text/plain" .visibilityPrivate
    (uploadedBlob name) with id := id }

/-- The marker of `docs` and the uploaded files. -/
def docsTree : Tables Collation.binary where
  buckets := emptyPhotos.buckets
  objects := ⟨(oneMarker "docs").objects.rows ++ [uploadedRow 2 "docs/a.txt" "a.txt",
    uploadedRow 3 "docs/sub/b.txt" "b.txt", uploadedRow 4 "other/c.txt" "c.txt"], by decide⟩
  nextBucketID := 2
  nextObjectID := 5

/-- The run that creates `docs` and uploads them. -/
theorem run_docsTree :
    StepSystem.Run (requestSystem Collation.binary) {}
      [createPhotos, .createFolder (newFolder "docs") stagedMarker 0, uploadDocs] docsTree := by
  have hstaged : ∀ staged ∈ uploadDocs.stagedBlobs, staged.storagePath ≠ "" := by decide
  have hupload : uploadDocs.run (oneMarker "docs") = .ok docsTree := rfl
  exact (run_oneMarker rfl).append (.cons ⟨hstaged, Or.inl hupload⟩ (.nil _))

/-- A run that creates the folder `docs`. -/
theorem stored_objects_addressable_docs :
    Served (oneMarker "docs") "docs/.light-oss-folder" := by
  have hjoins : ∀ request ∈ [createPhotos, .createFolder (newFolder "docs") stagedMarker 0],
      KeyJoins request := by
    intro request hmem
    rcases List.mem_cons.mp hmem with rfl | hmem
    · trivial
    · rw [List.mem_singleton.mp hmem]
      exact ⟨⟨by decide, by decide⟩, by decide, by decide⟩
  exact ((stored_objects_addressable rfl (run_oneMarker rfl) hjoins).1 _ List.mem_cons_self).2

/-- `CreateFolder` accepts the name `a..b` and stores a marker that no request can
    read or delete by its key. -/
theorem stored_objects_addressable_dots :
    ∃ c : Tables Collation.binary, StepSystem.Run (requestSystem Collation.binary) {}
        [createPhotos, .createFolder (newFolder "a..b") stagedMarker 0] c
      ∧ ∃ o ∈ c.objects.rows, validateObjectKey o.objectKey ≠ .ok ()
        ∧ (∃ message, getMetadata c "photos" o.objectKey = .error (invalidObjectKey message))
        ∧ ∃ message, delete c "photos" o.objectKey 1 "g" = .error (invalidObjectKey message) := by
  refine ⟨oneMarker "a..b", run_oneMarker rfl, _, List.mem_cons_self, by decide, ?_, ?_⟩
  · exact ⟨"object key must not contain path traversal", rfl⟩
  · exact ⟨"object key must not contain path traversal", rfl⟩

end Addressable
