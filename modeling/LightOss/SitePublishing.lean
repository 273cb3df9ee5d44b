import LightOss.SiteServing
import LightOss.Addressable

/-! # Site publishing — whether a new site reaches what was published

    Each publication builds an object key and a site from the same input: the key by
    joining, the root prefix and the index document by trimming.  The two recompose
    unless there is white space, or a bare slash, where only one of them looks.

    A site reaches a key when its root prefix and index document are the key and the
    read paths accept it (`reaches_iff`).  Trimming drops a front of the prefix, nothing
    exactly when it starts clean (`rootPrefix_split`); for a folder the question is then
    whether the key is below what is left (`hasPrefix_rootPrefix`). -/

namespace SitePublishing

open Trimming KeyedTable Fallible LedgerRows Catalog Validation MetadataServices BatchPublication
open ObjectServices ObjectKeys Addressable SiteServing

variable {k : Collation}

/-- The row that `SiteRepository.Create` reads back. -/
def createdSite (c : Tables k) (site : Site) (now : Time) : Site :=
  { site with id := c.nextSiteID, createdAt := now, updatedAt := now }

structure PublishSiteUploadInput where
  bucketName : String
  parentPrefix : String
  enabled : Bool
  indexDocument : String
  errorDocument : String
  spaFallback : Bool
  domains : List String
  items : List UploadObjectBatchItemInput

/-- `SitePublishService.Publish`; the new site. -/
def publish (c : Tables k) (input : PublishSiteUploadInput) (stagedBlobs : List StagedBlob)
    (now : Time) : Except Err (Tables k × Site) := do
  ensure (input.items ≠ []) (invalidBatchManifest "manifest must contain at least one file")
  ensure (input.items.length ≤ maxBatchUploadItems)
    (invalidBatchManifest "manifest must contain at most 2000 files")
  ensure (input.domains ≠ []) (invalidRequest "domains is required")
  let parentPrefix ← normalizePublishParentPrefix input.parentPrefix
  let topLevelFolder ← sharedTopLevelFolderName "" input.items
  let (site, domains) ← buildSiteInput c {
    bucketName := input.bucketName
    rootPrefix := parentPrefix ++ topLevelFolder ++ "/"
    enabled := input.enabled
    indexDocument := input.indexDocument
    errorDocument := input.errorDocument
    spaFallback := input.spaFallback
    domains := input.domains }
  let preparedItems ← prepareItems parentPrefix [] input.items
  let (c', _) ← (publishSiteMetadata input.bucketName
    (objectsToSave input.bucketName .visibilityPublic preparedItems stagedBlobs) site domains
    now c).mapError sitePublishError
  return (c', createdSite c site now)

/-- `originalFilename` is the sanitized file name, `contentType` the normalized type. -/
structure PublishSiteFileInput where
  bucketName : String
  parentPrefix : String
  enabled : Bool
  errorDocument : String
  spaFallback : Bool
  domains : List String
  filename : String
  originalFilename : String
  contentType : String

/-- `SitePublishService.PublishFile`. -/
def publishFile (c : Tables k) (input : PublishSiteFileInput) (staged : StagedBlob) (now : Time) :
    Except Err (Tables k × Site) := do
  ensure (input.domains ≠ []) (invalidRequest "domains is required")
  let parentPrefix ← normalizePublishParentPrefix input.parentPrefix
  let fileName ← normalizePublishFileName input.filename
  let (site, domains) ← buildSiteInput c {
    bucketName := input.bucketName
    rootPrefix := parentPrefix
    enabled := input.enabled
    indexDocument := fileName
    errorDocument := input.errorDocument
    spaFallback := input.spaFallback
    domains := input.domains }
  let (c', _) ← (publishSiteFileMetadata (stagedObject input.bucketName (parentPrefix ++ fileName)
    input.originalFilename input.contentType .visibilityPublic staged) site domains now c).mapError
      sitePublishError
  return (c', createdSite c site now)

/-- `siteLocationFromObjectKey`: the key without its outer white space, cut behind its
    last slash. -/
def siteLocationFromObjectKey (objectKey : String) : String × String :=
  let normalized := (trimSpace (slashed objectKey)).toList
  let name := (normalized.reverse.takeWhile (· != '/')).reverse
  (String.ofList (normalized.take (normalized.length - name.length)), String.ofList name)

structure PublishObjectSiteInput where
  bucketName : String
  objectKey : String
  enabled : Bool
  errorDocument : String
  spaFallback : Bool
  domains : List String

/-- `SitePublishService.PublishObject`. -/
def publishObject (c : Tables k) (input : PublishObjectSiteInput) (now : Time) :
    Except Err (Tables k × Site) := do
  validateBucketName input.bucketName
  validateUserObjectKey input.objectKey
  ensure (input.domains ≠ []) (invalidRequest "domains is required")
  let _ ← (findActive c input.bucketName input.objectKey).mapError fun _ => objectNotFound
  let (rootPrefix, indexDocument) := siteLocationFromObjectKey input.objectKey
  let (site, domains) ← buildSiteInput c {
    bucketName := input.bucketName
    rootPrefix := rootPrefix
    enabled := input.enabled
    indexDocument := indexDocument
    errorDocument := input.errorDocument
    spaFallback := input.spaFallback
    domains := input.domains }
  let c' ← (do
    let c ← (Catalog.updateVisibility c input.bucketName input.objectKey .visibilityPublic
      now).mapError
      fun _ => objectNotFound
    createSite c site domains now).mapError sitePublishError
  return (c', createdSite c site now)

/-! ## Trimming -/

/-- What the normalization of a prefix takes from its front. -/
def skipped (c : Char) : Bool := isSpace c || c == '/'

/-- The text starts with neither white space nor a slash. -/
def StartsClean (s : String) : Prop := ∀ c ∈ s.toList.head?, skipped c = false

instance (s : String) : Decidable (StartsClean s) :=
  decidable_of_iff ((s.toList.head?.all fun c => !skipped c) = true) (by
    rw [Option.all_eq_true]
    exact forall₂_congr fun c _ => Iff.of_eq (Bool.not_eq_true' (skipped c)))

/-- White space is passed over where a prefix is normalized. -/
theorem skipped_of_space {c : Char} (h : isSpace c = true) : skipped c = true := by
  rw [skipped, h, Bool.true_or]

/-- White space goes at both ends, and stays nowhere else. -/
theorem trimSpace_split (s : String) : ∃ front back,
    s.toList = front ++ (trimSpace s).toList ++ back
      ∧ (∀ c ∈ front, isSpace c = true) ∧ ∀ c ∈ back, isSpace c = true := by
  obtain ⟨front, back, hs, hspaces⟩ := trim_split isSpace isSpace s.toList
  refine ⟨front, back, ?_, hspaces⟩
  rw [trimSpace, String.toList_ofList, List.append_assoc]
  exact hs

/-- A trimmed text does not end in white space. -/
theorem trimSpace_last {s : String} {front : List Char} {c : Char}
    (h : (trimSpace s).toList = front ++ [c]) : isSpace c = false := by
  rw [trimSpace, String.toList_ofList] at h
  refine trim_last (p := isSpace) (l := s.toList) ?_
  rw [trim, h]
  exact List.getLast?_concat

/-- A text that begins and ends with something else is left alone. -/
theorem trimSpace_of_ends {s : String} {front back : List Char} {c d : Char}
    (hfirst : s.toList = c :: back) (hc : isSpace c = false) (hlast : s.toList = front ++ [d])
    (hd : isSpace d = false) : trimSpace s = s := by
  have hid : trim isSpace isSpace s.toList = s.toList := by
    refine trim_of_ends (fun e he => ?_) fun e he => ?_
    · rw [hfirst] at he
      cases he
      exact hc
    · rw [hlast, List.getLast?_concat] at he
      cases he
      exact hd
  exact (congrArg String.ofList hid).trans String.ofList_toList

/-- A text without backslashes stays as it is. -/
theorem slashed_of_free {s : String} (h : '\\' ∉ s.toList) : slashed s = s := by
  have hid : s.toList.map (fun c => if c = '\\' then '/' else c) = s.toList := by
    refine (List.map_congr_left (g := id) fun c hc => ?_).trans (List.map_id _)
    refine if_neg ?_
    rintro rfl
    exact h hc
  rw [slashed, hid, String.ofList_toList]

/-- Either a slash is taken from the front or none stands there. -/
theorem trimPrefix_slash (s : String) :
    (∃ rest, s.toList = '/' :: rest ∧ trimPrefix s "/" = String.ofList rest)
      ∨ ('/' ∉ s.toList.head? ∧ trimPrefix s "/" = s) := by
  rw [trimPrefix]
  split
  · next hpfx =>
      obtain ⟨rest, hrest⟩ := List.isPrefixOf_iff_prefix.mp hpfx
      have hs : s.toList = '/' :: rest := hrest.symm
      exact Or.inl ⟨rest, hs, by rw [hs]; rfl⟩
  · next hpfx =>
      refine Or.inr ⟨fun hhead => hpfx ?_, rfl⟩
      cases hs : s.toList with
      | nil =>
          rw [hs] at hhead
          cases hhead
      | cons c rest =>
          rw [hs] at hhead
          cases hhead
          rw [hasPrefix, hs]
          rfl

/-- A trimmed text does not begin with white space. -/
theorem trimSpace_first {s : String} {c : Char} (h : c ∈ (trimSpace s).toList.head?) :
    isSpace c = false := by
  rw [trimSpace, String.toList_ofList] at h
  exact trim_first h

/-! ## The root prefix and the index document -/

/-- A prefix is normalized by dropping what it starts with: nothing exactly when it
    starts clean. -/
theorem rootPrefix_split {pfx rootPrefix : String} (hback : '\\' ∉ pfx.toList)
    (hshape : pfx = "" ∨ hasSuffix pfx "/" = true)
    (h : normalizeSiteRootPrefix pfx = .ok rootPrefix) :
    ∃ front, pfx.toList = front ++ rootPrefix.toList ∧ (∀ c ∈ front, skipped c = true)
      ∧ (front = [] ↔ StartsClean pfx) := by
  rw [normalizeSiteRootPrefix, slashed_of_free hback] at h
  dsimp only at h
  rcases hshape with rfl | hsfx
  · have hempty : trimPrefix (trimSpace "") "/" = "" := by decide
    rw [if_pos hempty] at h
    cases pure_eq_ok.mp h
    refine ⟨[], rfl, List.forall_mem_nil _, ⟨fun _ c hc => ?_, fun _ => rfl⟩⟩
    cases hc
  obtain ⟨dir, hdir⟩ := hasSuffix_iff.mp hsfx
  have hlast : pfx.toList.getLast? = some '/' := by
    rw [← hdir]
    exact List.getLast?_concat
  obtain ⟨space, back, hpfx, hspace, hbackspace⟩ := trimSpace_split pfx
  -- the slash at the end is not white space
  have hnil : back = [] := by
    rcases List.eq_nil_or_concat back with hnil | ⟨front, c, rfl⟩
    · exact hnil
    · rw [hpfx, List.concat_eq_append, ← List.append_assoc, List.getLast?_concat] at hlast
      cases hlast
      exact absurd (hbackspace '/' (by simp)) (by decide)
  rw [hnil, List.append_nil] at hpfx
  have hroot : ∀ front, pfx.toList = front ++ (trimPrefix (trimSpace pfx) "/").toList →
      rootPrefix = trimPrefix (trimSpace pfx) "/" := by
    intro front hfront
    split at h
    · next hempty => exact (pure_eq_ok.mp h).symm.trans hempty.symm
    · next hne =>
        obtain ⟨_, -, h⟩ := bind_eq_ok.mp h
        rw [← pure_eq_ok.mp h, if_pos]
        rw [hfront, List.getLast?_append_of_ne_nil _ fun hnil => hne (String.toList_inj.mp hnil)]
          at hlast
        obtain ⟨rest, hrest⟩ := List.getLast?_eq_some_iff.mp hlast
        exact hasSuffix_iff.mpr ⟨rest, hrest.symm⟩
  -- a slash behind the white space is dropped, too
  rcases trimPrefix_slash (trimSpace pfx) with ⟨rest, hrest, htrim⟩ | ⟨hfirst, htrim⟩
  · have hfront : pfx.toList = (space ++ ['/']) ++ rest := by
      rw [hpfx, hrest, List.append_assoc]
      rfl
    have heq := hroot (space ++ ['/']) (by rw [htrim, String.toList_ofList, hfront])
    refine ⟨space ++ ['/'], by rw [heq, htrim, String.toList_ofList, hfront], ?_, ?_⟩
    · intro c hc
      rcases List.mem_append.mp hc with hc | hc
      · exact skipped_of_space (hspace c hc)
      · exact List.mem_singleton.mp hc ▸ rfl
    · refine ⟨fun hnil => absurd hnil (List.concat_ne_nil _ _), fun hclean => ?_⟩
      cases space with
      | nil => exact absurd (hclean '/' (by rw [hfront]; rfl)) (by decide)
      | cons c space =>
          have hc := hclean c (by rw [hfront]; rfl)
          rw [skipped_of_space (hspace c List.mem_cons_self)] at hc
          cases hc
  · have heq := hroot space (by rw [htrim]; exact hpfx)
    refine ⟨space, by rw [heq, htrim]; exact hpfx, fun c hc => skipped_of_space (hspace c hc), ?_⟩
    constructor
    · rintro rfl c hc
      rw [List.nil_append] at hpfx
      rw [hpfx] at hc
      refine Bool.or_eq_false_iff.mpr ⟨trimSpace_first hc, ?_⟩
      rw [beq_eq_false_iff_ne]
      rintro rfl
      exact hfirst hc
    · intro hclean
      cases space with
      | nil => rfl
      | cons c space =>
          have hc := hclean c (by rw [hpfx]; rfl)
          rw [skipped_of_space (hspace c List.mem_cons_self)] at hc
          cases hc

/-- The root prefix of a site is the prefix it was built from, if that starts clean. -/
theorem rootPrefix_eq_iff {pfx rootPrefix : String} (hback : '\\' ∉ pfx.toList)
    (hshape : pfx = "" ∨ hasSuffix pfx "/" = true)
    (h : normalizeSiteRootPrefix pfx = .ok rootPrefix) : rootPrefix = pfx ↔ StartsClean pfx := by
  obtain ⟨front, hpfx, -, hfront⟩ := rootPrefix_split hback hshape h
  rw [← hfront, ← String.toList_inj, hpfx]
  constructor
  · exact fun heq => List.self_eq_append_left.mp heq
  · rintro rfl
    rfl

/-- A document without a slash is trimmed, or the default when nothing is left. -/
theorem indexDocument_eq {value indexDocument : String} (hback : '\\' ∉ value.toList)
    (hslash : '/' ∉ value.toList)
    (h : normalizeSiteDocument value defaultSiteIndexDocument false = .ok indexDocument) :
    indexDocument = if trimSpace value = "" then defaultSiteIndexDocument else trimSpace value := by
  obtain ⟨front, back, hvalue, -⟩ := trimSpace_split value
  have htrim : trimPrefix (trimSpace value) "/" = trimSpace value := by
    rcases trimPrefix_slash (trimSpace value) with ⟨rest, hrest, -⟩ | ⟨-, htrim⟩
    · refine absurd ?_ hslash
      rw [hvalue, hrest]
      simp
    · exact htrim
  rw [normalizeSiteDocument, slashed_of_free hback, htrim] at h
  dsimp only at h
  rw [if_neg fun hand => Bool.false_ne_true hand.2] at h
  obtain ⟨_, -, h⟩ := bind_eq_ok.mp h
  exact (pure_eq_ok.mp h).symm

/-! ## A request for the root -/

/-- The site reaches the key: its root prefix and index document are the key, and a
    request for `/` serves the object stored there, once the site is enabled and the
    object public. -/
structure Reaches (k : Collation) (site : Site) (key : String) : Prop where
  recomposes : site.rootPrefix ++ site.indexDocument = key
  root : site.enabled = true → ∀ (c : Tables k) (β : Type) (storageOpen : String → Except Err β),
    Openable c storageOpen → ∀ o, publicAt c site.bucketName key = some o →
      ∃ content, openContent c storageOpen (some site) "/" = .ok content
        ∧ content.object = o ∧ content.statusCode = 200

/-- The path `/` has the index document as its only candidate. -/
theorem openContent_root {c : Tables k} {β : Type} {storageOpen : String → Except Err β}
    {site : Site}
    (henabled : site.enabled = true) :
    openContent c storageOpen (some site) "/"
      = openFirst c storageOpen site.bucketName [⟨site.rootPrefix ++ site.indexDocument, 200⟩] := by
  have hpath : normalizeWebsiteRequestPath "/" = .ok ("", true) := by decide
  rw [openContent_of_path henabled hpath, siteCandidateKeys, siteObjectKey_eq]
  exact congrArg _ (if_pos rfl)

/-- With the key recomposed, what is left is that the read paths accept it. -/
theorem reaches_iff {site : Site} (hbucket : validateBucketName site.bucketName = .ok ())
    {key : String} :
    Reaches k site key ↔ site.rootPrefix ++ site.indexDocument = key
      ∧ (site.enabled = true → validateObjectKey key = .ok ()) := by
  constructor
  · intro h
    refine ⟨h.recomposes, fun henabled => ?_⟩
    -- a bucket with nothing but that object, which is public
    let stored : Object := { bucketName := site.bucketName, objectKey := key, storagePath := ""
                             size := 0, visibility := .visibilityPublic }
    let c : Tables k := { objects := ⟨[stored], List.pairwise_singleton _ _⟩ }
    have hopen : Openable c fun path => (.ok path : Except Err String) :=
      fun o _ => ⟨o.storagePath, rfl⟩
    have hpublic : publicAt c site.bucketName key = some stored := by
      rw [publicAt_eq_some]
      refine ⟨?_, rfl⟩
      have hkey : sameKey k site.bucketName key stored = true := by
        rw [sameKey, Collation.eq_refl, Collation.eq_refl]
        rfl
      rw [Table.first?, List.find?_cons_of_pos hkey]
    -- the index is tried first, so its key was accepted
    obtain ⟨content, hcontent, -⟩ := h.root henabled c String _ hopen stored hpublic
    rw [openContent_root henabled, h.recomposes] at hcontent
    obtain ⟨⟨pre, candidate, post, hsplit, hpre, hkey, -⟩, -⟩ := openFirst_ok hopen hbucket hcontent
    cases pre with
    | nil =>
        cases hsplit
        exact hkey
    | cons d pre =>
        cases (List.cons.inj hsplit).1
        exact (hpre _ List.mem_cons_self).1
  · rintro ⟨rfl, hvalid⟩
    refine ⟨rfl, fun henabled c β storageOpen hopen o ho => ?_⟩
    let index : SiteCandidate := ⟨site.rootPrefix ++ site.indexDocument, 200⟩
    have hkey : validateObjectKey index.key = .ok () := hvalid henabled
    have hnone : ∀ d ∈ ([] : List SiteCandidate),
        validateObjectKey d.key = .ok () ∧ publicAt c site.bucketName d.key = none :=
      List.forall_mem_nil _
    rw [openContent_root henabled]
    exact openFirst_serves hopen hbucket hkey ho [] hnone

/-! ## The shared top-level folder -/

/-- A path of two segments or more, cut at its first slash. -/
theorem segments_first {s : String} (h : 2 ≤ (segments s).length) :
    ∃ top rest, s = top ++ "/" ++ rest ∧ '/' ∉ top.toList ∧ (segments s).headD "" = top := by
  by_cases hslash : '/' ∈ s.toList
  · obtain ⟨top, rest, hs, htop⟩ := List.eq_append_cons_of_mem hslash
    have hjoin : s = String.ofList top ++ "/" ++ String.ofList rest := by
      rw [← String.toList_inj, hs]
      simp only [String.toList_append, String.toList_ofList, List.append_assoc]
      rfl
    rw [← String.toList_ofList (l := top)] at htop
    refine ⟨String.ofList top, String.ofList rest, hjoin, htop, ?_⟩
    rw [hjoin, segments_join, segments_of_free htop]
    rfl
  · rw [segments_of_free hslash] at h
    exact absurd h (Nat.not_le_of_lt Nat.one_lt_two)

/-- The first segment of an item's path. -/
def topSegment (item : UploadObjectBatchItemInput) : String := (segments item.relativePath).headD ""

/-- Every item lies in the one folder, up to white space around its name. -/
theorem sharedTopLevelFolderName_ok : ∀ (items : List UploadObjectBatchItemInput)
    {start topLevelFolder : String}, sharedTopLevelFolderName start items = .ok topLevelFolder →
      (start ≠ "" → topLevelFolder = start)
      ∧ ∀ item ∈ items, trimSpace (topSegment item) = topLevelFolder ∧ topLevelFolder ≠ ""
        ∧ ∃ rest, item.relativePath = topSegment item ++ "/" ++ rest
          ∧ '/' ∉ (topSegment item).toList := by
  intro items
  induction items with
  | nil =>
      intro start topLevelFolder h
      cases h
      exact ⟨fun _ => rfl, nofun⟩
  | cons item rest ih =>
      intro start topLevelFolder h
      rw [sharedTopLevelFolderName] at h
      obtain ⟨_, -, h⟩ := bind_eq_ok.mp h
      obtain ⟨_, hparts, h⟩ := bind_eq_ok.mp h
      obtain ⟨_, hne, h⟩ := bind_eq_ok.mp h
      obtain ⟨_, hshared, h⟩ := bind_eq_ok.mp h
      obtain ⟨htop, hrest⟩ := ih h
      have hne := ensure_eq_ok.mp hne
      obtain ⟨top, tail, hpath, hfree, hhead⟩ := segments_first (ensure_eq_ok.mp hparts)
      have htop := htop hne
      refine ⟨fun hstart => ?_, List.forall_mem_cons.mpr ⟨⟨htop.symm, ?_, tail, ?_, ?_⟩, hrest⟩⟩
      · exact htop.trans ((ensure_eq_ok.mp hshared).resolve_left hstart)
      · exact htop ▸ hne
      · rw [topSegment, hhead]
        exact hpath
      · rw [topSegment, hhead]
        exact hfree

/-! ## The condition of each publication -/

/-- How far the characters to skip reach. -/
def skipLength (l : List Char) : Nat := (l.takeWhile skipped).length

/-- Passing over the front and then over the rest. -/
theorem skipLength_append {front : List Char} (h : ∀ c ∈ front, skipped c = true)
    (l : List Char) : skipLength (front ++ l) = front.length + skipLength l := by
  rw [skipLength, List.takeWhile_append_of_pos h, List.length_append]
  rfl

/-- A text with a character to keep decides how far they reach in what it begins. -/
theorem skipLength_begins {l : List Char} (h : ∃ c ∈ l, skipped c = false) (rest : List Char) :
    skipLength (l ++ rest) = skipLength l := by
  obtain ⟨c, hc, hkept⟩ := h
  rw [skipLength, List.takeWhile_append, if_neg]
  · rfl
  · intro hall
    have heq := (List.takeWhile_prefix skipped (l := l)).eq_of_length hall
    have htrue := List.mem_takeWhile_imp (heq ▸ hc)
    rw [hkept] at htrue
    exact nomatch htrue

/-- The top segment ends at the first slash. -/
theorem takeWhile_free {top : List Char} (h : '/' ∉ top) (rest : List Char) :
    (top ++ '/' :: rest).takeWhile (· != '/') = top := by
  rw [List.takeWhile_append_of_pos, List.takeWhile_cons_of_neg (by decide), List.append_nil]
  exact fun c hc => bne_iff_ne.mpr fun heq => h (heq ▸ hc)

/-- A folder holds a path exactly when it is the path's first segment. -/
theorem prefix_of_free {top top' rest : List Char} (htop : '/' ∉ top) (htop' : '/' ∉ top') :
    top ++ ['/'] <+: top' ++ '/' :: rest ↔ top = top' := by
  constructor
  · rintro ⟨back, h⟩
    rw [List.append_assoc, List.singleton_append] at h
    have hfirst := congrArg (List.takeWhile (· != '/')) h
    rwa [takeWhile_free htop, takeWhile_free htop'] at hfirst
  · rintro rfl
    exact ⟨rest, by rw [List.append_assoc]; rfl⟩

/-- A top segment that is more than white space has a character to stop at. -/
theorem skipped_of_top {top : String} (hne : trimSpace top ≠ "") (hfree : '/' ∉ top.toList) :
    ∃ c rest, (trimSpace top).toList = c :: rest ∧ skipped c = false := by
  cases htrim : (trimSpace top).toList with
  | nil => exact absurd (String.toList_inj.mp htrim) hne
  | cons c rest =>
      refine ⟨c, rest, rfl, Bool.or_eq_false_iff.mpr ⟨trimSpace_first (by rw [htrim]; rfl), ?_⟩⟩
      obtain ⟨front, back, htop, -⟩ := trimSpace_split top
      rw [beq_eq_false_iff_ne]
      rintro rfl
      refine hfree ?_
      rw [htop, htrim]
      simp

theorem mem_of_trimSpace {s : String} {c : Char} (h : c ∈ (trimSpace s).toList) : c ∈ s.toList := by
  obtain ⟨front, back, hs, -⟩ := trimSpace_split s
  rw [hs]
  exact List.mem_append_left _ (List.mem_append_right _ h)

/-- White space between a prefix and a name does not shorten what can be skipped. -/
theorem skipLength_le (pfx : List Char) {c : Char} (hc : skipped c = false) (l l' : List Char) :
    skipLength (pfx ++ c :: l) ≤ skipLength (pfx ++ l') := by
  by_cases hall : ∀ d ∈ pfx, skipped d = true
  · rw [skipLength_append hall, skipLength_append hall, skipLength,
      List.takeWhile_cons_of_neg (Bool.eq_false_iff.mp hc)]
    exact Nat.le_add_right _ _
  · obtain ⟨d, hd, hkept⟩ : ∃ d ∈ pfx, skipped d = false := by simpa using hall
    rw [skipLength_begins ⟨d, hd, hkept⟩, skipLength_begins ⟨d, hd, hkept⟩]

/-- A key lies under the root prefix of its top-level folder exactly when nothing was
    trimmed from either. -/
theorem hasPrefix_rootPrefix {pfx top rest rootPrefix : String} (hpfx : '\\' ∉ pfx.toList)
    (hback : '\\' ∉ top.toList) (hne : trimSpace top ≠ "") (hfree : '/' ∉ top.toList)
    (h : normalizeSiteRootPrefix (pfx ++ trimSpace top ++ "/") = .ok rootPrefix) :
    hasPrefix (pfx ++ (top ++ "/" ++ rest)) rootPrefix = true
      ↔ StartsClean pfx ∧ trimSpace top = top := by
  obtain ⟨c, tail, htrim, hkept⟩ := skipped_of_top hne hfree
  have hfolder : (pfx ++ trimSpace top ++ "/").toList
      = pfx.toList ++ ((trimSpace top).toList ++ ['/']) := by
    rw [String.toList_append, String.toList_append, List.append_assoc]
    rfl
  have hkey : (pfx ++ (top ++ "/" ++ rest)).toList
      = pfx.toList ++ (top.toList ++ '/' :: rest.toList) := by
    rw [String.toList_append, String.toList_append, String.toList_append, List.append_assoc]
    rfl
  have hfree' : '/' ∉ (trimSpace top).toList := fun hc => hfree (mem_of_trimSpace hc)
  have hclean : StartsClean (pfx ++ trimSpace top ++ "/") ↔ StartsClean pfx := by
    rw [StartsClean, StartsClean, hfolder, htrim]
    cases pfx.toList with
    | nil => simp [hkept]
    | cons d l => rfl
  obtain ⟨front, hsplit, hskipped, hfront⟩ := rootPrefix_split (by
    rw [hfolder, List.mem_append, List.mem_append, not_or, not_or]
    exact ⟨hpfx, fun hc => hback (mem_of_trimSpace hc), by decide⟩)
    (Or.inr (hasSuffix_iff.mpr (by rw [String.toList_append]; exact List.suffix_append _ _))) h
  rw [hclean] at hfront
  rw [hfolder] at hsplit
  rw [hasPrefix_iff, hkey]
  constructor
  · intro hprefix
    obtain ⟨back, hback⟩ := hprefix
    have hnil : front = [] := by
      -- the first character of the folder's name is not among the dropped ones
      have hmem : c ∈ rootPrefix.toList := by
        have hc : c ∈ front ++ rootPrefix.toList := by
          rw [← hsplit, htrim]
          simp
        refine (List.mem_append.mp hc).resolve_left fun hc => ?_
        rw [hskipped c hc] at hkept
        exact nomatch hkept
      have hroot := skipLength_append hskipped rootPrefix.toList
      rw [← hsplit, htrim] at hroot
      -- what is dropped from the folder would have to be dropped from the key
      have hle := skipLength_le pfx.toList hkept (tail ++ ['/']) (top.toList ++ '/' :: rest.toList)
      rw [← hback, skipLength_begins ⟨c, hmem, hkept⟩] at hle
      rw [List.cons_append] at hroot
      exact List.length_eq_zero_iff.mp (by omega)
    refine ⟨hfront.mp hnil, ?_⟩
    rw [hnil, List.nil_append] at hsplit
    rw [← hsplit, List.append_assoc] at hback
    have hfirst := (prefix_of_free hfree' hfree).mp ⟨back, List.append_cancel_left hback⟩
    exact String.toList_inj.mp hfirst
  · rintro ⟨hpfxClean, htop⟩
    rw [hfront.mpr hpfxClean, List.nil_append] at hsplit
    rw [← hsplit, htop]
    exact (List.prefix_append_right_inj _).mpr ((prefix_of_free hfree hfree).mpr rfl)

/-- An accepted folder prefix has no backslash and is empty or ends in a slash. -/
theorem folderPrefix_shape {pfx : String} (h : validateFolderPrefix pfx = .ok ()) :
    '\\' ∉ pfx.toList ∧ (pfx = "" ∨ hasSuffix pfx "/" = true) := by
  rw [validateFolderPrefix, validatePrefix] at h
  obtain ⟨_, hchars, h⟩ := bind_eq_ok.mp h
  refine ⟨fun hc => ensure_eq_ok.mp hchars (Or.inr (Or.inr hc)), ?_⟩
  split at h
  · next hempty => exact Or.inl hempty
  · obtain ⟨_, hsfx, -⟩ := bind_eq_ok.mp h
    exact Or.inr (ensure_eq_ok.mp hsfx)

/-- The prepared items are those of the manifest, each of them accepted. -/
theorem prepareItems_keys {pfx : String} : ∀ (items : List UploadObjectBatchItemInput)
    {seen : List String} {prepared : List PreparedBatchUploadItem},
    prepareItems pfx seen items = .ok prepared →
      prepared.map (·.objectKey) = items.map (fun item => pfx ++ item.relativePath)
      ∧ ∀ item ∈ items, Accepted item.relativePath := by
  intro items
  induction items with
  | nil =>
      intro seen prepared h
      cases h
      exact ⟨rfl, nofun⟩
  | cons item rest ih =>
      intro seen prepared h
      rw [prepareItems] at h
      obtain ⟨_, hpath, h⟩ := bind_eq_ok.mp h
      obtain ⟨_, -, h⟩ := bind_eq_ok.mp h
      obtain ⟨_, -, h⟩ := bind_eq_ok.mp h
      obtain ⟨tail, htail, h⟩ := bind_eq_ok.mp h
      cases pure_eq_ok.mp h
      obtain ⟨hkeys, hrest⟩ := ih htail
      refine ⟨congrArg _ hkeys, List.forall_mem_cons.mpr ⟨?_, hrest⟩⟩
      have hpath := mapError_eq_ok.mp hpath
      rw [validateUploadRelativePath] at hpath
      obtain ⟨_, -, hpath⟩ := bind_eq_ok.mp hpath
      obtain ⟨_, -, hpath⟩ := bind_eq_ok.mp hpath
      exact (validateUserObjectKey_iff.mp hpath).1

/-- What `Publish` asks of its input for the site to hold what it uploads. -/
def PublishRecomposes (parentPrefix : String) (items : List UploadObjectBatchItemInput) : Prop :=
  StartsClean parentPrefix ∧ ∀ item ∈ items, trimSpace (topSegment item) = topSegment item

/-- **The prefix of a published folder**: every key lies under it exactly when the two ways
    to build it recompose. -/
theorem publish_prefix {c c' : Tables k} {input : PublishSiteUploadInput}
    {stagedBlobs : List StagedBlob} {now : Time} {site : Site}
    (h : publish c input stagedBlobs now = .ok (c', site)) :
    ∃ parentPrefix preparedItems, normalizePublishParentPrefix input.parentPrefix = .ok parentPrefix
      ∧ prepareItems parentPrefix [] input.items = .ok preparedItems
      ∧ ((∀ p ∈ preparedItems, hasPrefix p.objectKey site.rootPrefix = true)
        ↔ PublishRecomposes parentPrefix input.items) := by
  rw [publish] at h
  obtain ⟨_, hitems, h⟩ := bind_eq_ok.mp h
  obtain ⟨_, -, h⟩ := bind_eq_ok.mp h
  obtain ⟨_, -, h⟩ := bind_eq_ok.mp h
  obtain ⟨parentPrefix, hparent, h⟩ := bind_eq_ok.mp h
  obtain ⟨topLevelFolder, hfolder, h⟩ := bind_eq_ok.mp h
  obtain ⟨⟨site₀, domains⟩, hbuild, h⟩ := bind_eq_ok.mp h
  obtain ⟨preparedItems, hprepared, h⟩ := bind_eq_ok.mp h
  obtain ⟨⟨_, _⟩, -, h⟩ := bind_eq_ok.mp h
  cases pure_eq_ok.mp h
  refine ⟨parentPrefix, preparedItems, hparent, hprepared, ?_⟩
  obtain ⟨hkeys, haccepted⟩ := prepareItems_keys input.items hprepared
  have hroot : normalizeSiteRootPrefix (parentPrefix ++ topLevelFolder ++ "/")
      = .ok site₀.rootPrefix := (buildSiteInput_ok hbuild).rootPrefix
  have hpfx := (folderPrefix_shape (normalizePublishParentPrefix_ok hparent)).1
  have heach : ∀ item ∈ input.items,
      hasPrefix (parentPrefix ++ item.relativePath) site₀.rootPrefix = true
        ↔ StartsClean parentPrefix ∧ trimSpace (topSegment item) = topSegment item := by
    intro item hitem
    obtain ⟨htrim, hne, rest, hpath, hfree⟩ :=
      (sharedTopLevelFolderName_ok input.items hfolder).2 item hitem
    have hback : '\\' ∉ (topSegment item).toList := by
      intro hc
      refine (haccepted item hitem).backslash ?_
      rw [hpath, String.toList_append, String.toList_append, List.mem_append, List.mem_append]
      exact Or.inl (Or.inl hc)
    rw [← htrim] at hroot hne
    rw [hpath]
    exact hasPrefix_rootPrefix hpfx hback hne hfree hroot
  constructor
  · intro hall
    have hitem : ∀ item ∈ input.items,
        StartsClean parentPrefix ∧ trimSpace (topSegment item) = topSegment item := by
      intro item hitem
      have hkey : parentPrefix ++ item.relativePath ∈ preparedItems.map (·.objectKey) :=
        hkeys ▸ List.mem_map_of_mem hitem
      obtain ⟨p, hp, hkey⟩ := List.mem_map.mp hkey
      exact (heach item hitem).mp (hkey ▸ hall p hp)
    obtain ⟨first, hfirst⟩ := List.exists_mem_of_ne_nil _ (ensure_eq_ok.mp hitems)
    exact ⟨(hitem first hfirst).1, fun item hmem => (hitem item hmem).2⟩
  · rintro ⟨hclean, htops⟩ p hp
    obtain ⟨item, hitem, hkey⟩ := List.mem_map.mp (hkeys ▸ List.mem_map_of_mem hp)
    rw [← hkey]
    exact (heach item hitem).mpr ⟨hclean, htops item hitem⟩

/-! ## A published file -/

theorem trimSpace_idem (s : String) : trimSpace (trimSpace s) = trimSpace s := by
  cases hfirst : (trimSpace s).toList with
  | nil =>
      have hempty : trimSpace s = "" := String.toList_inj.mp hfirst
      rw [hempty]
      rfl
  | cons c rest =>
      rcases List.eq_nil_or_concat (trimSpace s).toList with hnil | ⟨front, d, hlast⟩
      · exact nomatch hfirst.symm.trans hnil
      · rw [List.concat_eq_append] at hlast
        exact trimSpace_of_ends hfirst (trimSpace_first (by rw [hfirst]; rfl)) hlast
          (trimSpace_last hlast)

/-- A base is the text between slashes, or one of the two that name no file. -/
theorem pathBase_free (p : String) :
    pathBase p = "." ∨ pathBase p = "/" ∨ '/' ∉ (pathBase p).toList := by
  by_cases hempty : p = ""
  · exact Or.inl (if_pos hempty)
  · refine Or.inr ?_
    rw [pathBase, if_neg hempty]
    dsimp only
    split
    · exact Or.inl rfl
    · refine Or.inr fun hc => ?_
      rw [String.toList_ofList, List.mem_reverse] at hc
      exact absurd (List.mem_takeWhile_imp hc) (by decide)

/-- The name that `PublishFile` gives both to the key and to the site. -/
theorem fileName_ok {value fileName : String} (h : normalizePublishFileName value = .ok fileName) :
    '/' ∉ fileName.toList ∧ trimSpace fileName = fileName ∧ fileName ≠ "" := by
  rw [normalizePublishFileName] at h
  obtain ⟨_, hname, h⟩ := bind_eq_ok.mp h
  obtain ⟨_, -, h⟩ := bind_eq_ok.mp h
  cases pure_eq_ok.mp h
  have hname := ensure_eq_ok.mp hname
  refine ⟨?_, trimSpace_idem _, fun hempty => hname (Or.inl hempty)⟩
  rcases pathBase_free (trimSpace (slashed value)) with hbase | hbase | hbase
  · refine absurd (Or.inr (Or.inl ?_)) hname
    rw [hbase]
    decide
  · refine absurd (Or.inr (Or.inr ?_)) hname
    rw [hbase]
    decide
  · exact fun hc => hbase (mem_of_trimSpace hc)

/-- The file is reached exactly when its prefix starts clean and, on an enabled site,
    its key is one the read paths accept. -/
theorem publishFile_reaches {c c' : Tables k} {input : PublishSiteFileInput} {staged : StagedBlob}
    {now : Time} {site : Site} (h : publishFile c input staged now = .ok (c', site)) :
    ∃ parentPrefix fileName, normalizePublishParentPrefix input.parentPrefix = .ok parentPrefix
      ∧ normalizePublishFileName input.filename = .ok fileName
      ∧ (Reaches k site (parentPrefix ++ fileName)
        ↔ StartsClean parentPrefix
          ∧ (input.enabled = true → validateObjectKey (parentPrefix ++ fileName) = .ok ())) := by
  rw [publishFile] at h
  obtain ⟨_, -, h⟩ := bind_eq_ok.mp h
  obtain ⟨parentPrefix, hparent, h⟩ := bind_eq_ok.mp h
  obtain ⟨fileName, hname, h⟩ := bind_eq_ok.mp h
  obtain ⟨⟨site₀, domains⟩, hbuild, h⟩ := bind_eq_ok.mp h
  obtain ⟨⟨_, _⟩, -, h⟩ := bind_eq_ok.mp h
  cases pure_eq_ok.mp h
  refine ⟨parentPrefix, fileName, hparent, hname, ?_⟩
  have hbuilt := buildSiteInput_ok hbuild
  obtain ⟨hslash, htrim, hne⟩ := fileName_ok hname
  have haccepted := (validateUserObjectKey_iff.mp (normalizePublishFileName_ok hname)).1
  have hindex : site₀.indexDocument = fileName := by
    rw [indexDocument_eq haccepted.backslash hslash hbuilt.indexDocument, htrim, if_neg hne]
  obtain ⟨hback, hshape⟩ := folderPrefix_shape (normalizePublishParentPrefix_ok hparent)
  have hroot := rootPrefix_eq_iff hback hshape hbuilt.rootPrefix
  have hbucket : validateBucketName (createdSite c site₀ now).bucketName = .ok () :=
    hbuilt.validBucket
  rw [reaches_iff hbucket]
  show site₀.rootPrefix ++ site₀.indexDocument = _ ∧ (site₀.enabled = true → _) ↔ _
  rw [hindex, String.append_left_inj, hroot, hbuilt.flags.1]

/-! ## A published object -/

/-- The cut of a list behind its last slash. -/
theorem cut_last (l : List Char) :
    ∃ dir name, l = dir ++ name ∧ (l.reverse.takeWhile (· != '/')).reverse = name
      ∧ '/' ∉ name ∧ (dir = [] ∨ ['/'] <:+ dir) := by
  refine ⟨(l.reverse.dropWhile (· != '/')).reverse, (l.reverse.takeWhile (· != '/')).reverse,
    ?_, rfl, fun hc => ?_, ?_⟩
  · rw [← List.reverse_append, List.takeWhile_append_dropWhile, List.reverse_reverse]
  · exact absurd (List.mem_takeWhile_imp (List.mem_reverse.mp hc)) (by decide)
  · cases hdir : l.reverse.dropWhile (· != '/') with
    | nil => exact Or.inl rfl
    | cons c rest =>
        have hhead : c ∈ (l.reverse.dropWhile (· != '/')).head? := by
          rw [hdir]
          rfl
        have hc := dropWhile_head hhead
        rw [bne_eq_false_iff_eq] at hc
        rw [List.reverse_cons, hc]
        exact Or.inr (List.suffix_append _ _)

/-- The location of a key is the trimmed key, cut behind its last slash. -/
theorem siteLocation_ok {key : String} (hback : '\\' ∉ key.toList) :
    ∃ dir name, siteLocationFromObjectKey key = (dir, name) ∧ trimSpace key = dir ++ name
      ∧ '/' ∉ name.toList ∧ (dir = "" ∨ hasSuffix dir "/" = true) := by
  obtain ⟨dir, name, hkey, hname, hfree, hdir⟩ := cut_last (trimSpace key).toList
  refine ⟨String.ofList dir, String.ofList name, ?_, ?_, ?_, ?_⟩
  · rw [siteLocationFromObjectKey, slashed_of_free hback]
    rw [hname, hkey, List.length_append, Nat.add_sub_cancel, List.take_left]
  · rw [← String.ofList_append, ← hkey, String.ofList_toList]
  · rw [String.toList_ofList]
    exact hfree
  · rcases hdir with rfl | hsfx
    · exact Or.inl rfl
    · refine Or.inr (hasSuffix_iff.mpr ?_)
      rw [String.toList_ofList (l := dir)]
      exact hsfx

/-- What `PublishObject` asks of a key: white space neither around it nor around its
    last segment. -/
def ObjectRecomposes (objectKey : String) : Prop :=
  trimSpace objectKey = objectKey
    ∧ trimSpace (siteLocationFromObjectKey objectKey).2 = (siteLocationFromObjectKey objectKey).2

/-- A text that loses no character was trimmed already. -/
theorem trimSpace_eq_of_length {s : String} (h : s.toList.length ≤ (trimSpace s).toList.length) :
    trimSpace s = s := by
  obtain ⟨front, back, hs, -⟩ := trimSpace_split s
  rw [hs, List.length_append, List.length_append] at h
  have hfront : front = [] := List.length_eq_zero_iff.mp (by omega)
  have hback : back = [] := List.length_eq_zero_iff.mp (by omega)
  rw [hfront, hback, List.append_nil, List.nil_append] at hs
  exact String.toList_inj.mp hs.symm

theorem length_trimSpace_le (s : String) : (trimSpace s).toList.length ≤ s.toList.length := by
  obtain ⟨front, back, hs, -⟩ := trimSpace_split s
  have hlength := congrArg List.length hs
  rw [List.length_append, List.length_append] at hlength
  omega

/-- A key whose last segment is white space gets the default document, which it does
    not end with. -/
theorem blank_name_not_recomposed {key dir name rootPrefix : String} (haccepted : Accepted key)
    (hkey : trimSpace key = dir ++ name) (hdir : dir = "" ∨ hasSuffix dir "/" = true)
    (hblank : trimSpace name = "") : rootPrefix ++ defaultSiteIndexDocument ≠ key := by
  intro hrecomposed
  have hempty : name = "" := by
    rcases List.eq_nil_or_concat name.toList with hnil | ⟨front, c, hname⟩
    · exact String.toList_inj.mp hnil
    · rw [List.concat_eq_append] at hname
      have hlast : (trimSpace key).toList = (dir.toList ++ front) ++ [c] := by
        rw [hkey, String.toList_append, hname, List.append_assoc]
      have hmem : c ∈ name.toList := by
        rw [hname]
        simp
      have hvisible := trimSpace_ne_empty.mpr ⟨c, hmem, trimSpace_last hlast⟩
      exact absurd hblank hvisible
  rw [hempty, String.append_empty] at hkey
  -- the last character is the document's, the slash or white space
  have hlast : key.toList.getLast? = some 'l' := by
    rw [← hrecomposed, String.toList_append,
      List.getLast?_append_of_ne_nil _ (by decide : defaultSiteIndexDocument.toList ≠ [])]
    rfl
  obtain ⟨front, back, hsplit, -, hspace⟩ := trimSpace_split key
  rcases List.eq_nil_or_concat back with rfl | ⟨rest, c, rfl⟩
  · rcases hdir with rfl | hsfx
    · exact trimSpace_ne_empty.mpr haccepted.visible hkey
    · obtain ⟨rest, hrest⟩ := hasSuffix_iff.mp hsfx
      rw [hsplit, hkey, ← hrest, List.append_nil, ← List.append_assoc] at hlast
      exact absurd (List.getLast?_concat.symm.trans hlast) (by decide)
  · rw [List.concat_eq_append] at hsplit hspace
    rw [hsplit, ← List.append_assoc, List.getLast?_concat] at hlast
    cases hlast
    exact absurd (hspace 'l' (by simp)) (by decide)

/-- The two halves of a site's location recompose to the key exactly then. -/
theorem location_recomposes {key dir name rootPrefix indexDocument : String}
    (haccepted : Accepted key)
    (hkey : trimSpace key = dir ++ name) (hfree : '/' ∉ name.toList)
    (hdir : dir = "" ∨ hasSuffix dir "/" = true)
    (hroot : normalizeSiteRootPrefix dir = .ok rootPrefix)
    (hindex : normalizeSiteDocument name defaultSiteIndexDocument false = .ok indexDocument) :
    rootPrefix ++ indexDocument = key ↔ trimSpace key = key ∧ trimSpace name = name := by
  have hchars : ∀ c ∈ (dir ++ name).toList, c ∈ key.toList := fun c hc =>
    mem_of_trimSpace (hkey ▸ hc)
  have hback : '\\' ∉ dir.toList := fun hc =>
    haccepted.backslash (hchars _ (by rw [String.toList_append]; exact List.mem_append_left _ hc))
  have hback' : '\\' ∉ name.toList := fun hc =>
    haccepted.backslash (hchars _ (by rw [String.toList_append]; exact List.mem_append_right _ hc))
  have hdocument := indexDocument_eq hback' hfree hindex
  constructor
  · intro hrecomposed
    by_cases hblank : trimSpace name = ""
    · rw [if_pos hblank] at hdocument
      rw [hdocument] at hrecomposed
      exact absurd hrecomposed (blank_name_not_recomposed haccepted hkey hdir hblank)
    · rw [if_neg hblank] at hdocument
      -- no part is longer than what it was taken from, so none is shorter
      obtain ⟨front, hsplit, -⟩ := rootPrefix_split hback hdir hroot
      have hlength := congrArg (fun s => s.toList.length) hrecomposed
      have hparts := congrArg (fun s => s.toList.length) hkey
      have hfront := congrArg List.length hsplit
      have hle := length_trimSpace_le name
      have hle' := length_trimSpace_le key
      simp only [String.toList_append, List.length_append, hdocument] at hlength hparts hfront
      exact ⟨trimSpace_eq_of_length (by omega), trimSpace_eq_of_length (by omega)⟩
  · rintro ⟨htrim, hname⟩
    rw [htrim] at hkey
    have hclean : StartsClean dir := by
      intro c hc
      have hfirst : c ∈ key.toList.head? := by
        rw [hkey, String.toList_append, List.head?_append, hc]
        rfl
      refine Bool.or_eq_false_iff.mpr ⟨trimSpace_first (htrim.symm ▸ hfirst), ?_⟩
      rw [beq_eq_false_iff_ne]
      rintro rfl
      obtain ⟨rest, hrest⟩ := List.head?_eq_some_iff.mp hfirst
      have hslash : key = "/" ++ String.ofList rest := by
        rw [← String.toList_inj, hrest]
        simp
      exact not_slash_of_accepted (hslash ▸ haccepted)
    have hne : name ≠ "" := by
      rintro rfl
      rw [String.append_empty] at hkey
      obtain ⟨front, c, hlast, hslash⟩ := getLast_of_good haccepted.segs
      rcases hdir with rfl | hsfx
      · rw [hkey] at hlast
        exact absurd hlast.symm (by simp)
      · obtain ⟨rest, hrest⟩ := hasSuffix_iff.mp hsfx
        rw [hkey, ← hrest] at hlast
        have hinj := List.append_inj_right' hlast rfl
        exact hslash (List.cons.inj hinj).1.symm
    rw [(rootPrefix_eq_iff hback hdir hroot).mpr hclean, hdocument, hname, if_neg hne]
    exact hkey.symm

/-- The object is reached exactly when its key recomposes. -/
theorem publishObject_reaches {c c' : Tables k} {input : PublishObjectSiteInput} {now : Time}
    {site : Site} (h : publishObject c input now = .ok (c', site)) :
    Reaches k site input.objectKey ↔ ObjectRecomposes input.objectKey := by
  rw [publishObject] at h
  obtain ⟨_, -, h⟩ := bind_eq_ok.mp h
  obtain ⟨_, hvalid, h⟩ := bind_eq_ok.mp h
  obtain ⟨_, -, h⟩ := bind_eq_ok.mp h
  obtain ⟨_, -, h⟩ := bind_eq_ok.mp h
  have haccepted := (validateUserObjectKey_iff.mp hvalid).1
  obtain ⟨dir, name, hlocation, hkey, hfree, hdir⟩ := siteLocation_ok haccepted.backslash
  rw [hlocation] at h
  obtain ⟨⟨site₀, domains⟩, hbuild, h⟩ := bind_eq_ok.mp h
  obtain ⟨_, -, h⟩ := bind_eq_ok.mp h
  cases pure_eq_ok.mp h
  have hbuilt := buildSiteInput_ok hbuild
  have hbucket : validateBucketName (createdSite c site₀ now).bucketName = .ok () :=
    hbuilt.validBucket
  rw [reaches_iff hbucket, ObjectRecomposes, hlocation]
  have hiff := location_recomposes haccepted hkey hfree hdir hbuilt.rootPrefix hbuilt.indexDocument
  constructor
  · exact fun hreach => hiff.mp hreach.1
  · exact fun htrim => ⟨hiff.mpr htrim, fun _ => validateObjectKey_iff.mpr haccepted⟩

/-- **A published site** reaches what was published exactly when the white space, or
    the slash, that only the site's normalization looks at is not there. -/
theorem published_site_reaches (k : Collation) :
    (∀ (c c' : Tables k) input stagedBlobs now site,
      publish c input stagedBlobs now = .ok (c', site) →
        ∃ parentPrefix preparedItems,
          normalizePublishParentPrefix input.parentPrefix = .ok parentPrefix
          ∧ prepareItems parentPrefix [] input.items = .ok preparedItems
          ∧ ((∀ p ∈ preparedItems, hasPrefix p.objectKey site.rootPrefix = true)
            ↔ PublishRecomposes parentPrefix input.items))
    ∧ (∀ (c c' : Tables k) input staged now site,
      publishFile c input staged now = .ok (c', site) →
        ∃ parentPrefix fileName, normalizePublishParentPrefix input.parentPrefix = .ok parentPrefix
          ∧ normalizePublishFileName input.filename = .ok fileName
          ∧ (Reaches k site (parentPrefix ++ fileName)
            ↔ StartsClean parentPrefix
              ∧ (input.enabled = true → validateObjectKey (parentPrefix ++ fileName) = .ok ())))
    ∧ ∀ (c c' : Tables k) input now site, publishObject c input now = .ok (c', site) →
        (Reaches k site input.objectKey ↔ ObjectRecomposes input.objectKey) :=
  ⟨fun _ _ _ _ _ _ => publish_prefix, fun _ _ _ _ _ _ => publishFile_reaches,
    fun _ _ _ _ _ => publishObject_reaches⟩

/-! ## Runs -/

/-- A bucket with one object whose name begins with a blank. -/
def shop : Tables Collation.binary where
  buckets := ⟨[{ id := 1, name := "shop" }], by decide⟩
  objects := ⟨[{ id := 1, bucketName := "shop", objectKey := "docs/ a.txt"
                 storagePath := "objects/a", size := 1 }], by decide⟩
  nextObjectID := 2

/-- The sites that are published there. -/
def shopSite (rootPrefix indexDocument : String) : Site where
  bucketName := "shop"
  rootPrefix := rootPrefix
  enabled := true
  indexDocument := indexDocument
  errorDocument := ""
  spaFallback := false

/-- Whatever the two normalizations answer, the site is built from it. -/
theorem shop_built (pfx index rootPrefix indexDocument : String)
    (hroot : normalizeSiteRootPrefix pfx = .ok rootPrefix)
    (hindex : normalizeSiteDocument index defaultSiteIndexDocument false = .ok indexDocument) :
    buildSiteInput shop { bucketName := "shop", rootPrefix := pfx, enabled := true
                          indexDocument := index, errorDocument := "", spaFallback := false
                          domains := ["a.example"] }
      = .ok (shopSite rootPrefix indexDocument, ["a.example"]) := by
  have hbucket : validateBucketName "shop" = .ok () := by decide
  have hexists : bucketExists shop "shop" = true := by decide
  have herror : normalizeSiteDocument "" "" true = .ok "" := by decide
  have hdomains : normalizeSiteDomains ["a.example"] = .ok ["a.example"] := by
    rw [normalizeSiteDomains]
    refine bind_eq_ok.mpr ⟨["a.example"], by decide, ?_⟩
    exact congrArg Except.ok (List.mergeSort_singleton _)
  rw [buildSiteInput]
  refine bind_eq_ok.mpr ⟨(), hbucket, bind_eq_ok.mpr ⟨(), ensure_eq_ok.mpr hexists, ?_⟩⟩
  refine bind_eq_ok.mpr ⟨rootPrefix, hroot, bind_eq_ok.mpr ⟨indexDocument, hindex, ?_⟩⟩
  exact bind_eq_ok.mpr ⟨"", herror, bind_eq_ok.mpr ⟨["a.example"], hdomains, rfl⟩⟩

/-- The one staged file. -/
def shopStaged : StagedBlob :=
  { id := "s", storagePath := "objects/s", stagingPath := "staging/s", size := 1 }

/-- The one item of the manifest. -/
def shopUploadItem : UploadObjectBatchItemInput where
  relativePath := "docs/b.txt"
  originalFilename := "b.txt"
  contentType := "text/plain"

/-- A folder with that item. -/
def shopUpload : PublishSiteUploadInput where
  bucketName := "shop"
  parentPrefix := ""
  enabled := true
  indexDocument := ""
  errorDocument := ""
  spaFallback := false
  domains := ["a.example"]
  items := [shopUploadItem]

theorem shopUpload_runs : ∃ c', publish shop shopUpload [shopStaged] 9
    = .ok (c', createdSite shop (shopSite "docs/" "index.html") 9) := by
  obtain ⟨⟨c', released⟩, hrun⟩ := exists_of_isOk (x := (publishSiteMetadata "shop"
    (objectsToSave "shop" .visibilityPublic
      [{ item := shopUploadItem, objectKey := "docs/b.txt" }] [shopStaged])
    (shopSite "docs/" "index.html") ["a.example"] 9 shop).mapError sitePublishError) (by decide)
  have hbuild := shop_built "docs/" "" "docs/" "index.html" (by decide) (by decide)
  refine ⟨c', ?_⟩
  rw [publish]
  refine bind_eq_ok.mpr ⟨(), by decide, bind_eq_ok.mpr ⟨(), by decide, ?_⟩⟩
  refine bind_eq_ok.mpr ⟨(), by decide, bind_eq_ok.mpr ⟨"", by decide, ?_⟩⟩
  refine bind_eq_ok.mpr ⟨"docs", by decide, bind_eq_ok.mpr ⟨_, hbuild, ?_⟩⟩
  exact bind_eq_ok.mpr ⟨_, rfl, bind_eq_ok.mpr ⟨(c', released), hrun, rfl⟩⟩

def shopFile : PublishSiteFileInput where
  bucketName := "shop"
  parentPrefix := "docs"
  enabled := true
  errorDocument := ""
  spaFallback := false
  domains := ["a.example"]
  filename := "b.txt"
  originalFilename := "b.txt"
  contentType := "text/plain"

/-- A single file is published under `docs/` with itself as the index document. -/
theorem shopFile_runs : ∃ c', publishFile shop shopFile shopStaged 9
    = .ok (c', createdSite shop (shopSite "docs/" "b.txt") 9) := by
  obtain ⟨⟨c', released⟩, hrun⟩ := exists_of_isOk (x := (publishSiteFileMetadata
    (stagedObject "shop" "docs/b.txt" "b.txt" "text/plain" .visibilityPublic shopStaged)
    (shopSite "docs/" "b.txt") ["a.example"] 9 shop).mapError sitePublishError) (by decide)
  have hbuild := shop_built "docs/" "b.txt" "docs/" "b.txt" (by decide) (by decide)
  refine ⟨c', ?_⟩
  rw [publishFile]
  refine bind_eq_ok.mpr ⟨(), by decide, bind_eq_ok.mpr ⟨"docs/", by decide, ?_⟩⟩
  refine bind_eq_ok.mpr ⟨"b.txt", by decide, bind_eq_ok.mpr ⟨_, hbuild, ?_⟩⟩
  exact bind_eq_ok.mpr ⟨(c', released), hrun, rfl⟩

/-- The object that is there already. -/
def shopObject : PublishObjectSiteInput where
  bucketName := "shop"
  objectKey := "docs/ a.txt"
  enabled := true
  errorDocument := ""
  spaFallback := false
  domains := ["a.example"]

/-- The object is published with an index document that lost the blank. -/
theorem shopObject_runs : ∃ c', publishObject shop shopObject 9
    = .ok (c', createdSite shop (shopSite "docs/" "a.txt") 9) := by
  obtain ⟨c', hrun⟩ := exists_of_isOk (x := (do
    let c ← (Catalog.updateVisibility shop "shop" "docs/ a.txt" .visibilityPublic 9).mapError
      fun _ => objectNotFound
    createSite c (shopSite "docs/" "a.txt") ["a.example"] 9).mapError sitePublishError) (by decide)
  have hbuild := shop_built "docs/" " a.txt" "docs/" "a.txt" (by decide) (by decide)
  have hlocation : siteLocationFromObjectKey shopObject.objectKey = ("docs/", " a.txt") := by decide
  refine ⟨c', ?_⟩
  rw [publishObject, hlocation]
  refine bind_eq_ok.mpr ⟨(), by decide, bind_eq_ok.mpr ⟨(), by decide, ?_⟩⟩
  refine bind_eq_ok.mpr ⟨(), by decide, bind_eq_ok.mpr ⟨_, rfl, ?_⟩⟩
  exact bind_eq_ok.mpr ⟨_, hbuild, bind_eq_ok.mpr ⟨c', hrun, rfl⟩⟩

/-- The three publications succeed, so the three equivalences speak of real sites. -/
theorem published_site_reaches_shop :
    (∃ c' site parentPrefix preparedItems,
      publish shop shopUpload [shopStaged] 9 = .ok (c', site)
      ∧ prepareItems parentPrefix [] shopUpload.items = .ok preparedItems
      ∧ ((∀ p ∈ preparedItems, hasPrefix p.objectKey site.rootPrefix = true)
        ↔ PublishRecomposes parentPrefix shopUpload.items))
    ∧ (∃ c' site parentPrefix fileName, publishFile shop shopFile shopStaged 9 = .ok (c', site)
      ∧ (Reaches Collation.binary site (parentPrefix ++ fileName)
        ↔ StartsClean parentPrefix
          ∧ (shopFile.enabled = true → validateObjectKey (parentPrefix ++ fileName) = .ok ())))
    ∧ ∃ c' site, publishObject shop shopObject 9 = .ok (c', site)
      ∧ (Reaches Collation.binary site shopObject.objectKey
        ↔ ObjectRecomposes shopObject.objectKey) := by
  obtain ⟨hpublish, hfile, hobject⟩ := published_site_reaches Collation.binary
  obtain ⟨c₁, h₁⟩ := shopUpload_runs
  obtain ⟨c₂, h₂⟩ := shopFile_runs
  obtain ⟨c₃, h₃⟩ := shopObject_runs
  obtain ⟨parentPrefix, preparedItems, -, hprepared, hiff⟩ := hpublish _ _ _ _ _ _ h₁
  obtain ⟨parentPrefix', fileName, -, -, hreaches⟩ := hfile _ _ _ _ _ _ h₂
  exact ⟨⟨c₁, _, parentPrefix, preparedItems, h₁, hprepared, hiff⟩,
    ⟨c₂, _, parentPrefix', fileName, h₂, hreaches⟩, c₃, _, h₃, hobject _ _ _ _ _ h₃⟩

/-- A file whose name starts with a space: the site looks for it without the space. -/
theorem published_site_misses : ∃ c' site, publishObject shop shopObject 9 = .ok (c', site)
    ∧ site.rootPrefix ++ site.indexDocument ≠ shopObject.objectKey := by
  obtain ⟨c', h⟩ := shopObject_runs
  exact ⟨c', _, h, by decide⟩

end SitePublishing
