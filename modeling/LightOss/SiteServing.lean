import LightOss.ObjectServices
import LightOss.ObjectKeys

/-! # Site serving — which object a request path reaches

    A site names a bucket, a root prefix and two documents; `buildSiteInput`
    normalizes them.  `OpenContent` turns the request path into candidate keys and
    serves the first one that is a public object.  A candidate that is not there or
    is private is passed over; one that is no valid key ends the request.

    `openPublicObject_eq` says what becomes of one candidate, `openFirst_ok` and
    `openFirst_serves` what the loop over them serves.  The four ways a path can be
    answered are data (`Answer`), so that containment is said once for all of them
    (`contained_of_served`). -/

namespace SiteServing

open KeyedTable Fallible LedgerRows Catalog Validation ObjectServices ObjectKeys

variable {k : Collation} {β : Type}

/-! ## The input of a site -/

def defaultSiteIndexDocument : String := "index.html"

/-- `SiteInput`: a site as the request describes it. -/
structure SiteInput where
  bucketName : String
  rootPrefix : String
  enabled : Bool
  indexDocument : String
  errorDocument : String
  spaFallback : Bool
  domains : List String

/-- The errors of the three normalizations. -/
def invalidWebsiteConfig (message : String) : Err := .app 400 "invalid_website_config" message

/-- `normalizeSiteRootPrefix`: no leading slash, one trailing slash, good segments. -/
def normalizeSiteRootPrefix (pfx : String) : Except Err String := do
  let normalized := trimPrefix (trimSpace (slashed pfx)) "/"
  if normalized = "" then return ""
  else do
    let normalized := if hasSuffix normalized "/" then normalized else normalized ++ "/"
    (validateFolderPrefix normalized).mapError fun _ =>
      invalidWebsiteConfig "root_prefix is invalid"
    return normalized

/-- `normalizeSiteDocument`: an empty index document gets the default, an empty error
    document stays empty. -/
def normalizeSiteDocument (value defaultValue : String) (allowEmpty : Bool) :
    Except Err String := do
  let normalized := trimPrefix (trimSpace (slashed value)) "/"
  if normalized = "" ∧ allowEmpty = true then return ""
  else do
    let normalized := if normalized = "" then defaultValue else normalized
    (validateObjectKey normalized).mapError fun _ =>
      invalidWebsiteConfig "document path is invalid"
    return normalized

/-- The error of a host that cannot be a site's. -/
def invalidDomain (message : String) : Err := .app 400 "invalid_domain" message

/-- `unicode.ToLower` where it gives an ASCII character; a domain with any other
    character is refused whatever its case. -/
def toLower (c : Char) : Char :=
  if c = '\u212A' then 'k' else if c = '\u0130' then 'i' else c.toLower

/-- `^[a-z0-9]([a-z0-9-]*[a-z0-9])?$`. -/
def siteDomainLabelPattern (label : String) : Bool :=
  label.toList.head?.any lowerAlnum && label.toList.getLast?.any lowerAlnum
    && label.toList.all fun c => lowerAlnum c || c == '-'

/-- `isValidSiteDomain`: lengths in bytes, and every label as the pattern has it. -/
def isValidSiteDomain (value : String) : Bool :=
  value != "" && value.utf8ByteSize ≤ 253
    && ((value.toList.splitOn '.').map String.ofList).all fun label =>
      label.utf8ByteSize ≤ 63 && siteDomainLabelPattern label

/-- `net.SplitHostPort` succeeds only on a text with a colon, which the check after it
    refuses with the same answer. -/
def normalizeSiteDomain (value : String) : Except Err String := do
  let normalized := trimSuffix (String.ofList ((trimSpace value).toList.map toLower)) "."
  ensure (normalized ≠ "") (invalidDomain "domain is required")
  ensure (¬ (contains normalized "://" = true ∨ containsAny normalized "/?#" = true))
    (invalidDomain "domain must not include scheme, path or query")
  ensure (contains normalized ":" = false) (invalidDomain "domain must not include a port")
  ensure (isValidSiteDomain normalized = true) (invalidDomain "domain must be a valid hostname")
  return normalized

/-- The loop of `NormalizeSiteDomains`; `normalized` are the domains seen so far. -/
def distinctDomains (normalized : List String) : List String → Except Err (List String)
  | [] => .ok normalized
  | value :: rest => do
      let domain ← normalizeSiteDomain value
      distinctDomains (if domain ∈ normalized then normalized else normalized ++ [domain]) rest

/-- `normalizeSiteDomains`: distinct and sorted. -/
def normalizeSiteDomains (values : List String) : Except Err (List String) := do
  let normalized ← distinctDomains [] values
  return normalized.mergeSort fun a b => decide (a ≤ b)

/-- The site row and its domains. -/
def buildSiteInput (c : Tables k) (input : SiteInput) : Except Err (Site × List String) := do
  validateBucketName input.bucketName
  ensure (bucketExists c input.bucketName = true)
    (.app 404 "bucket_not_found" "bucket not found")
  let rootPrefix ← normalizeSiteRootPrefix input.rootPrefix
  let indexDocument ← normalizeSiteDocument input.indexDocument defaultSiteIndexDocument false
  let errorDocument ← normalizeSiteDocument input.errorDocument "" true
  let domains ← normalizeSiteDomains input.domains
  let site : Site := {
    bucketName := input.bucketName
    rootPrefix := rootPrefix
    enabled := input.enabled
    indexDocument := indexDocument
    errorDocument := errorDocument
    spaFallback := input.spaFallback }
  return (site, domains)

/-! ## The candidates of a path -/

/-- `strings.Trim(s, "/")`. -/
def trimSlashes (s : String) : String :=
  String.ofList ((s.toList.dropWhile (· == '/')).reverse.dropWhile (· == '/')).reverse

/-- The error of `normalizeWebsiteRequestPath`. -/
def invalidPath : Err := .errorf "invalid path"

/-- The segments that are kept, up to the first one that climbs. -/
def cleanSegments : List String → Except Err (List String)
  | [] => .ok []
  | segment :: rest =>
      if segment = "" then cleanSegments rest
      else if segment = "." ∨ segment = ".." then .error invalidPath
      else (cleanSegments rest).map (segment :: ·)

/-- The path without empty segments, and whether it names a directory. -/
def normalizeWebsiteRequestPath (raw : String) : Except Err (String × Bool) := do
  let trimmed := trimSpace raw
  if trimmed = "" ∨ trimmed = "/" then return ("", true)
  else do
    ensure (¬ (contains trimmed "\x00" = true ∨ contains trimmed "\\" = true)) invalidPath
    let cleaned ← cleanSegments (segments (trimSlashes trimmed))
    return if cleaned = [] then ("", true)
      else (joinSegments cleaned, hasSuffix trimmed "/")

/-- `siteCandidate`: a key and the status it is served with. -/
structure SiteCandidate where
  key : String
  statusCode : Nat

/-- `siteObjectKey`. -/
def siteObjectKey (rootPrefix value : String) : String :=
  if rootPrefix = "" then value else rootPrefix ++ value

/-- `siteCandidateKeys`: the document, the index of the directory, then the fallback or the
    error document. -/
def siteCandidateKeys (site : Site) (resolvedPath : String) (directoryHint : Bool) :
    List SiteCandidate :=
  let indexKey := siteObjectKey site.rootPrefix site.indexDocument
  if resolvedPath = "" then [⟨indexKey, 200⟩]
  else
    let directoryIndex :=
      ⟨siteObjectKey site.rootPrefix (resolvedPath ++ "/" ++ site.indexDocument), 200⟩
    (if directoryHint then [directoryIndex]
      else [⟨siteObjectKey site.rootPrefix resolvedPath, 200⟩, directoryIndex])
    ++ (if site.spaFallback then [⟨indexKey, 200⟩]
      else if site.errorDocument ≠ "" then [⟨siteObjectKey site.rootPrefix site.errorDocument, 404⟩]
      else [])

/-! ## Opening the content -/

/-- `apperrors.From(err).Status`. -/
def appStatus : Err → Nat
  | .app status _ _ => status
  | .wrapped status _ _ _ => status
  | _ => 500

/-- `SiteContent`: the object, its reader and the status of the reply. -/
structure SiteContent (β : Type) where
  object : Object
  reader : β
  statusCode : Nat := 0

/-- `ObjectService.Open`; `storageOpen` is `LocalStorage.Open`, a reader its content. -/
def openObject (c : Tables k) (storageOpen : String → Except Err β)
    (bucketName objectKey : String) :
    Except Err (Object × β) := do
  let object ← getMetadata c bucketName objectKey
  let reader ← (storageOpen object.storagePath).mapError fun err =>
    .wrapped 500 "object_open_failed" "failed to open object content" err
  return (object, reader)

/-- `openPublicObject`: what is not there and what is private are passed over alike. -/
def openPublicObject (c : Tables k) (storageOpen : String → Except Err β)
    (bucketName objectKey : String) : Except Err (Option (SiteContent β)) :=
  match openObject c storageOpen bucketName objectKey with
  | .error err => if appStatus err = 404 then .ok none else .error err
  | .ok (object, reader) =>
      if object.visibility ≠ .visibilityPublic then .ok none
      else .ok (some { object := object, reader := reader })

/-- The error after the last candidate. -/
def websiteNotFound : Err := .app 404 "website_not_found" "website not found"

/-- The loop over the candidates. -/
def openFirst (c : Tables k) (storageOpen : String → Except Err β) (bucketName : String) :
    List SiteCandidate → Except Err (SiteContent β)
  | [] => .error websiteNotFound
  | candidate :: rest => do
      match ← openPublicObject c storageOpen bucketName candidate.key with
      | some content => return { content with statusCode := candidate.statusCode }
      | none => openFirst c storageOpen bucketName rest

/-- `SiteService.OpenContent`. -/
def openContent (c : Tables k) (storageOpen : String → Except Err β) (site : Option Site)
    (requestPath : String) : Except Err (SiteContent β) :=
  match site with
  | none => .error websiteNotFound
  | some site =>
      if site.enabled = false then .error websiteNotFound
      else match normalizeWebsiteRequestPath requestPath with
        | .error _ => .error websiteNotFound
        | .ok (resolvedPath, directoryHint) =>
            openFirst c storageOpen site.bucketName
              (siteCandidateKeys site resolvedPath directoryHint)

/-! ## One candidate -/

/-- What a visitor may see under a key: the public object stored there. -/
def publicAt (c : Tables k) (bucketName objectKey : String) : Option Object :=
  (c.objects.first? (sameKey k bucketName objectKey)).filter
    fun object => object.visibility = .visibilityPublic

/-- Every stored object's file can be opened. -/
def Openable (c : Tables k) (storageOpen : String → Except Err β) : Prop :=
  ∀ o ∈ c.objects.rows, ∃ reader, storageOpen o.storagePath = .ok reader

variable {c c' : Tables k} {storageOpen storageOpen' : String → Except Err β}
variable {bucketName objectKey : String} {site : Site}

/-- A public row under a key is the row the lookup finds, if that one is public. -/
theorem publicAt_eq_some {o : Object} : publicAt c bucketName objectKey = some o ↔
    c.objects.first? (sameKey k bucketName objectKey) = some o
      ∧ o.visibility = .visibilityPublic := by
  rw [publicAt, Option.filter_eq_some_iff, decide_eq_true_iff]

/-- A key that is refused is refused with 400, never passed over as missing. -/
theorem validateObjectKey_status : FailsOnly (fun err => appStatus err = 400)
    (validateObjectKey objectKey) := by
  rw [validateObjectKey]
  refine failsOnly_bind (failsOnly_ensure rfl) fun _ _ => ?_
  refine failsOnly_bind (failsOnly_ensure rfl) fun _ _ => ?_
  exact failsOnly_bind (failsOnly_ensure rfl) fun _ _ => failsOnly_ensure rfl

/-- **One candidate**: the check of its key, then the public object if there is one. -/
theorem openPublicObject_eq (hopen : Openable c storageOpen)
    (hbucket : validateBucketName bucketName = .ok ()) :
    openPublicObject c storageOpen bucketName objectKey
      = (validateObjectKey objectKey >>= fun _ =>
          match publicAt c bucketName objectKey with
          | none => .ok none
          | some o => (storageOpen o.storagePath).map fun reader =>
              some { object := o, reader := reader }) := by
  cases hkey : validateObjectKey objectKey with
  | error err =>
      have hstatus : appStatus err ≠ 404 := by
        rw [validateObjectKey_status err hkey]
        decide
      rw [openPublicObject, openObject, getMetadata, hbucket, hkey]
      exact if_neg hstatus
  | ok _ =>
      have hget : getMetadata c bucketName objectKey
          = (findActive c bucketName objectKey).mapError fun _ => objectNotFound := by
        rw [getMetadata, hbucket, hkey]
        rfl
      rw [openPublicObject, openObject, hget, findActive, publicAt]
      cases hfind : c.objects.first? (sameKey k bucketName objectKey) with
      | none => rfl
      | some o =>
          obtain ⟨reader, hreader⟩ := hopen o (List.mem_of_find?_eq_some hfind)
          have hopened :
            ((orElseThrow (some o) Err.recordNotFound).mapError fun _ => objectNotFound)
              >>= (fun object => (storageOpen object.storagePath).mapError (fun err =>
                Err.wrapped 500 "object_open_failed" "failed to open object content" err)
              >>= fun reader => pure (object, reader)) = .ok (o, reader) :=
            bind_eq_ok.mpr ⟨o, rfl, bind_eq_ok.mpr ⟨reader, mapError_eq_ok.mpr hreader, rfl⟩⟩
          rw [hopened]
          -- a private object is passed over as if it were not there
          cases hvisibility : o.visibility with
          | visibilityPublic =>
              rw [Option.filter_some, if_pos (decide_eq_true hvisibility)]
              show _ = Except.map _ (storageOpen o.storagePath)
              rw [hreader]
              exact if_neg (fun hne => hne hvisibility)
          | visibilityPrivate =>
              rw [Option.filter_some, if_neg (by rw [hvisibility]; decide)]
              exact if_pos (by rw [hvisibility]; decide)

/-! ## The loop over the candidates -/

/-- The candidate that is served, and what was passed over before it. -/
structure Served (c : Tables k) (storageOpen : String → Except Err β) (bucketName : String)
    (candidates : List SiteCandidate) (content : SiteContent β) : Prop where
  split : ∃ pre candidate post, candidates = pre ++ candidate :: post
    ∧ (∀ d ∈ pre, validateObjectKey d.key = .ok () ∧ publicAt c bucketName d.key = none)
    ∧ validateObjectKey candidate.key = .ok ()
    ∧ publicAt c bucketName candidate.key = some content.object
    ∧ content.statusCode = candidate.statusCode
  reader : storageOpen content.object.storagePath = .ok content.reader

/-- **The loop over the candidates**: what it serves is the first that is public. -/
theorem openFirst_ok (hopen : Openable c storageOpen)
    (hbucket : validateBucketName bucketName = .ok ()) {content : SiteContent β} :
    ∀ {candidates : List SiteCandidate},
      openFirst c storageOpen bucketName candidates = .ok content →
        Served c storageOpen bucketName candidates content := by
  intro candidates
  induction candidates with
  | nil => exact fun h => nomatch h
  | cons candidate rest ih =>
      intro h
      rw [openFirst, openPublicObject_eq hopen hbucket] at h
      obtain ⟨found, hfound, h⟩ := bind_eq_ok.mp h
      obtain ⟨_, hkey, hfound⟩ := bind_eq_ok.mp hfound
      cases hpublic : publicAt c bucketName candidate.key with
      | none =>
          rw [hpublic] at hfound
          cases hfound
          obtain ⟨⟨pre, served, post, rfl, hpre, hserved⟩, hreader⟩ := ih h
          refine ⟨⟨candidate :: pre, served, post, rfl, ?_, hserved⟩, hreader⟩
          exact List.forall_mem_cons.mpr ⟨⟨hkey, hpublic⟩, hpre⟩
      | some o =>
          rw [hpublic] at hfound
          obtain ⟨reader, hreader, rfl⟩ := map_eq_ok.mp hfound
          cases pure_eq_ok.mp h
          exact ⟨⟨[], candidate, rest, rfl, nofun, hkey, hpublic, rfl⟩, hreader⟩

/-- With every key before it accepted and nothing public there, a public candidate is
    served. -/
theorem openFirst_serves (hopen : Openable c storageOpen)
    (hbucket : validateBucketName bucketName = .ok ()) {candidate : SiteCandidate} {o : Object}
    (hkey : validateObjectKey candidate.key = .ok ())
    (hpublic : publicAt c bucketName candidate.key = some o) (post : List SiteCandidate) :
    ∀ {pre : List SiteCandidate},
      (∀ d ∈ pre, validateObjectKey d.key = .ok () ∧ publicAt c bucketName d.key = none) →
        ∃ content, openFirst c storageOpen bucketName (pre ++ candidate :: post) = .ok content
          ∧ content.object = o ∧ content.statusCode = candidate.statusCode := by
  intro pre
  induction pre with
  | nil =>
      intro _
      obtain ⟨reader, hreader⟩ := hopen o (Table.first?_eq_some (publicAt_eq_some.mp hpublic).1).1
      refine ⟨{ object := o, reader := reader, statusCode := candidate.statusCode }, ?_, rfl, rfl⟩
      rw [List.nil_append, openFirst, openPublicObject_eq hopen hbucket, hkey, hpublic]
      refine bind_eq_ok.mpr ⟨some { object := o, reader := reader }, ?_, rfl⟩
      exact bind_eq_ok.mpr ⟨(), rfl, map_eq_ok.mpr ⟨reader, hreader, rfl⟩⟩
  | cons d rest ih =>
      intro hpre
      obtain ⟨⟨hd, hnone⟩, hrest⟩ := List.forall_mem_cons.mp hpre
      obtain ⟨content, hcontent, hstatus⟩ := ih hrest
      refine ⟨content, ?_, hstatus⟩
      rw [List.cons_append, openFirst, openPublicObject_eq hopen hbucket, hd, hnone]
      exact hcontent

/-- The loop sees no more of a bucket than what is public under its candidates. -/
theorem openFirst_congr (hopen : Openable c storageOpen) (hopen' : Openable c' storageOpen')
    (hbucket : validateBucketName bucketName = .ok ()) :
    ∀ {candidates : List SiteCandidate},
      (∀ d ∈ candidates, publicAt c bucketName d.key = publicAt c' bucketName d.key
        ∧ ∀ o, publicAt c bucketName d.key = some o →
            storageOpen o.storagePath = storageOpen' o.storagePath) →
      openFirst c storageOpen bucketName candidates
        = openFirst c' storageOpen' bucketName candidates := by
  intro candidates
  induction candidates with
  | nil => exact fun _ => rfl
  | cons d rest ih =>
      intro h
      obtain ⟨⟨hsame, hfile⟩, hrest⟩ := List.forall_mem_cons.mp h
      rw [openFirst, openFirst, openPublicObject_eq hopen hbucket,
        openPublicObject_eq hopen' hbucket, ih hrest, ← hsame]
      cases hpublic : publicAt c bucketName d.key with
      | none => rfl
      | some o =>
          dsimp only
          rw [hfile o hpublic]

/-! ## The order of the candidates -/

/-- The four ways a path can be answered, in the order they are tried. -/
inductive Answer where
  | exactKey
  | directoryIndex
  | spaFallback
  | errorDocument
  deriving DecidableEq

namespace Answer

/-- The four answers in the order they are tried. -/
def inOrder : List Answer := [exactKey, directoryIndex, spaFallback, errorDocument]

/-- The path of the answer below the root prefix. -/
def path (site : Site) (resolvedPath : String) : Answer → String
  | exactKey => resolvedPath
  | directoryIndex =>
      if resolvedPath = "" then site.indexDocument else resolvedPath ++ "/" ++ site.indexDocument
  | spaFallback => site.indexDocument
  | errorDocument => site.errorDocument

/-- The root has its index only; a path with a trailing slash has no exact key. -/
def applies (site : Site) (resolvedPath : String) (directoryHint : Bool) : Answer → Bool
  | exactKey => resolvedPath != "" && !directoryHint
  | directoryIndex => true
  | spaFallback => resolvedPath != "" && site.spaFallback
  | errorDocument => resolvedPath != "" && !site.spaFallback && site.errorDocument != ""

/-- Only the error document is served as not found. -/
def statusCode (answer : Answer) : Nat := if answer = errorDocument then 404 else 200

/-- An answer as a candidate of the site. -/
def candidate (site : Site) (resolvedPath : String) (answer : Answer) : SiteCandidate :=
  ⟨site.rootPrefix ++ answer.path site resolvedPath, answer.statusCode⟩

end Answer

/-- The case distinction makes no difference. -/
theorem siteObjectKey_eq (rootPrefix value : String) :
    siteObjectKey rootPrefix value = rootPrefix ++ value := by
  rw [siteObjectKey]
  split
  · next hroot => rw [hroot, String.empty_append]
  · rfl

/-- The candidates are the answers that apply, in their order. -/
theorem siteCandidateKeys_eq (site : Site) (resolvedPath : String) (directoryHint : Bool) :
    siteCandidateKeys site resolvedPath directoryHint
      = (Answer.inOrder.filter (Answer.applies site resolvedPath directoryHint)).map
          (Answer.candidate site resolvedPath) := by
  by_cases hroot : resolvedPath = ""
  · simp [siteCandidateKeys, siteObjectKey_eq, Answer.inOrder, Answer.applies, Answer.candidate,
      Answer.path, Answer.statusCode, List.filter_cons, hroot]
  · cases directoryHint <;> cases hspa : site.spaFallback <;>
      by_cases herror : site.errorDocument = "" <;>
      simp [siteCandidateKeys, siteObjectKey_eq, Answer.inOrder, Answer.applies, Answer.candidate,
        Answer.path, Answer.statusCode, List.filter_cons, hroot, hspa, herror]

/-! ## Containment -/

/-- What a site shows to its visitors. -/
structure Visible (site : Site) (o : Object) : Prop where
  isPublic : o.visibility = .visibilityPublic
  bucketName : o.bucketName = site.bucketName
  rootPrefix : hasPrefix o.objectKey site.rootPrefix = true

/-- The content of a path is that of the first answer that applies and is visible. -/
structure Contained (c : Tables Collation.binary) (storageOpen : String → Except Err β)
    (site : Site)
    (resolvedPath : String) (directoryHint : Bool) (content : SiteContent β) : Prop where
  stored : content.object ∈ c.objects.rows
  visible : Visible site content.object
  noDots : ∀ segment ∈ segments content.object.objectKey, segment ≠ "." ∧ segment ≠ ".."
  first : ∃ pre answer post,
    Answer.inOrder.filter (Answer.applies site resolvedPath directoryHint) = pre ++ answer :: post
      ∧ content.object.objectKey = site.rootPrefix ++ answer.path site resolvedPath
      ∧ (∀ earlier ∈ pre, ∀ o ∈ c.objects.rows, Visible site o →
          o.objectKey ≠ site.rootPrefix ++ earlier.path site resolvedPath)
      ∧ content.statusCode = answer.statusCode
      ∧ (content.statusCode = 404 ↔ answer = .errorDocument)
  reader : storageOpen content.object.storagePath = .ok content.reader

theorem hasPrefix_append (pfx rest : String) : hasPrefix (pfx ++ rest) pfx = true := by
  rw [hasPrefix, String.toList_append]
  exact List.isPrefixOf_iff_prefix.mpr (List.prefix_append _ _)

section Binary

variable {c c' : Tables Collation.binary}

/-- Where keys compare byte for byte, what is public under a key is the one such row. -/
theorem publicAt_binary {o : Object} : publicAt c bucketName objectKey = some o ↔
    o ∈ c.objects.rows ∧ o.visibility = .visibilityPublic ∧ o.bucketName = bucketName
      ∧ o.objectKey = objectKey := by
  have hkey : ∀ a : Object, sameKey Collation.binary bucketName objectKey a = true
      ↔ a.bucketName = bucketName ∧ a.objectKey = objectKey := by
    intro a
    rw [sameKey, Bool.and_eq_true, Collation.eq_binary, Collation.eq_binary]
  rw [publicAt_eq_some]
  constructor
  · rintro ⟨hfind, hpublic⟩
    obtain ⟨hrow, hsame⟩ := Table.first?_eq_some hfind
    exact ⟨hrow, hpublic, (hkey o).mp hsame⟩
  · rintro ⟨hrow, hpublic, hsame⟩
    refine ⟨c.objects.first?_of_mem hrow ((hkey o).mpr hsame) fun a ha => ?_, hpublic⟩
    obtain ⟨hbucket, hobject⟩ := (hkey a).mp ha
    rw [Object.clash, sameKey, hbucket, hobject, hsame.1, hsame.2, Collation.eq_refl,
      Collation.eq_refl]
    exact Bool.or_true _

/-- What the loop serves is contained: public, in the bucket, under the prefix, first of its
    kind. -/
theorem contained_of_served {resolvedPath : String} {directoryHint : Bool} {content : SiteContent β}
    (h : Served c storageOpen site.bucketName (siteCandidateKeys site resolvedPath directoryHint)
      content) :
    Contained c storageOpen site resolvedPath directoryHint content := by
  obtain ⟨⟨pre, candidate, post, hsplit, hpre, hkey, hpublic, hstatus⟩, hreader⟩ := h
  rw [siteCandidateKeys_eq] at hsplit
  obtain ⟨before, rest, hanswers, rfl, hrest⟩ := List.map_eq_append_iff.mp hsplit
  obtain ⟨answer, after, rfl, rfl, -⟩ := List.map_eq_cons_iff.mp hrest
  obtain ⟨hrow, hvisibility, hbucket, hobject⟩ := publicAt_binary.mp hpublic
  have hroot : hasPrefix content.object.objectKey site.rootPrefix = true := by
    rw [hobject]
    exact hasPrefix_append _ _
  refine ⟨hrow, ⟨hvisibility, hbucket, hroot⟩, fun segment hsegment => ?_,
    ⟨before, answer, after, hanswers, hobject, fun earlier hearlier o ho hvisible hsame => ?_,
      hstatus, ?_⟩, hreader⟩
  · have hsegs := List.all_eq_true.mp (validateObjectKey_iff.mp hkey).segs segment
      (hobject ▸ hsegment)
    constructor <;> rintro rfl <;> exact absurd hsegs (by decide)
  · have hnone := (hpre _ (List.mem_map_of_mem hearlier)).2
    have hsome := publicAt_binary.mpr ⟨ho, hvisible.isPublic, hvisible.bucketName, hsame⟩
    exact nomatch hnone.symm.trans hsome
  · rw [hstatus]
    show Answer.statusCode answer = 404 ↔ _
    cases answer <;> decide

/-- Under a key of the site, two buckets that agree on what is visible agree. -/
theorem publicAt_congr
    (hsame : ∀ o, Visible site o → (o ∈ c.objects.rows ↔ o ∈ c'.objects.rows)) (path : String) :
    publicAt c site.bucketName (site.rootPrefix ++ path)
      = publicAt c' site.bucketName (site.rootPrefix ++ path) := by
  refine Option.ext fun o => ?_
  rw [publicAt_binary, publicAt_binary]
  refine and_congr_left fun ⟨hpublic, hbucket, hkey⟩ => ?_
  exact hsame o ⟨hpublic, hbucket, hkey ▸ hasPrefix_append _ _⟩

end Binary

/-! ## Sites that are built -/

/-- Every prefix that is not empty leaves the normalization with a slash at its end. -/
theorem normalizeSiteRootPrefix_ok {pfx rootPrefix : String}
    (h : normalizeSiteRootPrefix pfx = .ok rootPrefix) :
    rootPrefix = "" ∨ hasSuffix rootPrefix "/" = true := by
  rw [normalizeSiteRootPrefix] at h
  dsimp only at h
  split at h
  · cases pure_eq_ok.mp h
    exact Or.inl rfl
  · obtain ⟨_, -, h⟩ := bind_eq_ok.mp h
    cases pure_eq_ok.mp h
    refine Or.inr ?_
    split
    · assumption
    · rw [hasSuffix_iff, String.toList_append]
      exact List.suffix_append _ _

/-- What `buildSiteInput` has checked. -/
structure Built (input : SiteInput) (site : Site) (domains : List String) : Prop where
  bucketName : site.bucketName = input.bucketName
  validBucket : validateBucketName site.bucketName = .ok ()
  rootPrefix : normalizeSiteRootPrefix input.rootPrefix = .ok site.rootPrefix
  indexDocument : normalizeSiteDocument input.indexDocument defaultSiteIndexDocument false
    = .ok site.indexDocument
  errorDocument : normalizeSiteDocument input.errorDocument "" true = .ok site.errorDocument
  domains : normalizeSiteDomains input.domains = .ok domains
  flags : site.enabled = input.enabled ∧ site.spaFallback = input.spaFallback

/-- What passes `buildSiteInput` is built as `Built` says. -/
theorem buildSiteInput_ok {c₀ : Tables k} {input : SiteInput} {domains : List String}
    (h : buildSiteInput c₀ input = .ok (site, domains)) : Built input site domains := by
  rw [buildSiteInput] at h
  obtain ⟨_, hbucket, h⟩ := bind_eq_ok.mp h
  obtain ⟨_, -, h⟩ := bind_eq_ok.mp h
  obtain ⟨rootPrefix, hroot, h⟩ := bind_eq_ok.mp h
  obtain ⟨indexDocument, hindex, h⟩ := bind_eq_ok.mp h
  obtain ⟨errorDocument, herror, h⟩ := bind_eq_ok.mp h
  obtain ⟨domains', hdomains, h⟩ := bind_eq_ok.mp h
  cases pure_eq_ok.mp h
  exact ⟨rfl, hbucket, hroot, hindex, herror, hdomains, rfl, rfl⟩

/-- For an accepted path of an enabled site the request is the loop over the candidates. -/
theorem openContent_of_path (henabled : site.enabled = true) {requestPath resolvedPath : String}
    {directoryHint : Bool}
    (hpath : normalizeWebsiteRequestPath requestPath = .ok (resolvedPath, directoryHint)) :
    openContent c storageOpen (some site) requestPath
      = openFirst c storageOpen site.bucketName
          (siteCandidateKeys site resolvedPath directoryHint) := by
  simp only [openContent]
  rw [if_neg (by rw [henabled]; decide), hpath]

/-- Content comes from an enabled site and a path that normalizes. -/
theorem openContent_ok {requestPath : String} {content : SiteContent β}
    (h : openContent c storageOpen (some site) requestPath = .ok content) :
    ∃ resolvedPath directoryHint,
      normalizeWebsiteRequestPath requestPath = .ok (resolvedPath, directoryHint)
        ∧ openFirst c storageOpen site.bucketName
            (siteCandidateKeys site resolvedPath directoryHint) = .ok content := by
  cases henabled : site.enabled with
  | false =>
      simp only [openContent] at h
      rw [if_pos henabled] at h
      exact nomatch h
  | true =>
      cases hpath : normalizeWebsiteRequestPath requestPath with
      | error err =>
          simp only [openContent] at h
          rw [hpath, if_neg (by rw [henabled]; decide)] at h
          exact nomatch h
      | ok resolved =>
          rw [openContent_of_path henabled hpath] at h
          exact ⟨resolved.1, resolved.2, rfl, h⟩

/-- **Site containment.**  What is served is a visible object of the site, the first
    of the answers to its path; what is not visible makes no difference. -/
theorem site_containment {c₀ : Tables Collation.binary} {input : SiteInput} {domains : List String}
    (hbuild : buildSiteInput c₀ input = .ok (site, domains)) :
    (site.rootPrefix = "" ∨ hasSuffix site.rootPrefix "/" = true)
    ∧ (∀ (c : Tables Collation.binary) (storageOpen : String → Except Err β),
        Openable c storageOpen → ∀ requestPath content,
          openContent c storageOpen (some site) requestPath = .ok content →
            ∃ resolvedPath directoryHint,
              normalizeWebsiteRequestPath requestPath = .ok (resolvedPath, directoryHint)
                ∧ Contained c storageOpen site resolvedPath directoryHint content)
    ∧ ∀ (c c' : Tables Collation.binary) (storageOpen storageOpen' : String → Except Err β),
        Openable c storageOpen → Openable c' storageOpen' →
          (∀ o, Visible site o → (o ∈ c.objects.rows ↔ o ∈ c'.objects.rows)) →
          (∀ o ∈ c.objects.rows, Visible site o →
            storageOpen o.storagePath = storageOpen' o.storagePath) →
          ∀ requestPath, openContent c storageOpen (some site) requestPath
            = openContent c' storageOpen' (some site) requestPath := by
  have hbuilt := buildSiteInput_ok hbuild
  refine ⟨normalizeSiteRootPrefix_ok hbuilt.rootPrefix, ?_, ?_⟩
  · intro c storageOpen hopen requestPath content h
    obtain ⟨resolvedPath, directoryHint, hpath, h⟩ := openContent_ok h
    exact ⟨resolvedPath, directoryHint, hpath,
      contained_of_served (openFirst_ok hopen hbuilt.validBucket h)⟩
  · intro c c' storageOpen storageOpen' hopen hopen' hsame hfiles requestPath
    simp only [openContent]
    split
    · rfl
    · split
      · rfl
      · next resolvedPath directoryHint hpath =>
          refine openFirst_congr hopen hopen' hbuilt.validBucket fun d hd => ?_
          rw [siteCandidateKeys_eq] at hd
          obtain ⟨answer, -, rfl⟩ := List.mem_map.mp hd
          refine ⟨publicAt_congr hsame _, fun o ho => ?_⟩
          obtain ⟨hrow, hpublic, hbucket, hkey⟩ := publicAt_binary.mp ho
          exact hfiles o hrow ⟨hpublic, hbucket, hkey ▸ hasPrefix_append _ _⟩

/-- A bucket with a public index document. -/
def www : Tables Collation.binary where
  buckets := ⟨[{ id := 1, name := "www" }], by decide⟩
  objects := ⟨[{ id := 1, bucketName := "www", objectKey := "index.html", storagePath := "objects/i"
                 size := 1, visibility := .visibilityPublic }], by decide⟩

/-- The same bucket with a private object beside it. -/
def wwwSecret : Tables Collation.binary where
  buckets := www.buckets
  objects := ⟨[{ id := 1, bucketName := "www", objectKey := "index.html", storagePath := "objects/i"
                 size := 1, visibility := .visibilityPublic },
               { id := 2, bucketName := "www", objectKey := "app", storagePath := "objects/s"
                 size := 1 }], by decide⟩

/-- A site with the index document as its fallback. -/
def appInput : SiteInput where
  bucketName := "www"
  rootPrefix := ""
  enabled := true
  indexDocument := "index.html"
  errorDocument := ""
  spaFallback := true
  domains := []

/-- The site that is built from it. -/
def app : Site where
  bucketName := "www"
  rootPrefix := ""
  enabled := true
  indexDocument := "index.html"
  errorDocument := ""
  spaFallback := true

theorem app_built : buildSiteInput www appInput = .ok (app, []) := by
  rw [buildSiteInput]
  refine bind_eq_ok.mpr ⟨(), by decide, bind_eq_ok.mpr ⟨(), by decide, ?_⟩⟩
  refine bind_eq_ok.mpr ⟨"", by decide, bind_eq_ok.mpr ⟨"index.html", by decide, ?_⟩⟩
  refine bind_eq_ok.mpr ⟨"", by decide, bind_eq_ok.mpr ⟨[], ?_, rfl⟩⟩
  rw [normalizeSiteDomains]
  exact bind_eq_ok.mpr ⟨[], rfl, congrArg Except.ok List.mergeSort_nil⟩

/-- Every row of the tables can be opened. -/
theorem www_openable : Openable www fun path => (.ok path : Except Err String) :=
  fun o _ => ⟨o.storagePath, rfl⟩

/-- `/app` is answered with the index document: the object of that name is private. -/
theorem site_containment_secret :
    (∃ resolvedPath directoryHint,
      normalizeWebsiteRequestPath "/app" = .ok (resolvedPath, directoryHint)
      ∧ Contained www (fun path => .ok path) app resolvedPath directoryHint
          { object := { id := 1, bucketName := "www", objectKey := "index.html"
                        storagePath := "objects/i", size := 1, visibility := .visibilityPublic }
            reader := "objects/i", statusCode := 200 })
      ∧ openContent www (fun path => (.ok path : Except Err String)) (some app) "/app"
        = openContent wwwSecret (fun path => .ok path) (some app) "/app" := by
  have h := site_containment (β := String) app_built
  refine ⟨h.2.1 www (fun path => .ok path) www_openable "/app" _ rfl, ?_⟩
  refine h.2.2 www wwwSecret _ _ www_openable (fun o _ => ⟨o.storagePath, rfl⟩) (fun o ho => ?_)
    (fun _ _ _ => rfl) "/app"
  constructor
  · exact fun hrow => List.mem_cons.mpr (Or.inl (List.mem_singleton.mp hrow))
  · intro hrow
    rcases List.mem_cons.mp hrow with rfl | hrow
    · exact List.mem_singleton.mpr rfl
    · cases List.mem_singleton.mp hrow
      exact nomatch ho.isPublic

/-! ## The fallback of a single-page site -/

/-- The keys that are tried, up to the first public object, are accepted ones. -/
def NoneRefused (c : Tables k) (site : Site) (resolvedPath : String) (directoryHint : Bool) :
    Prop :=
  ∀ pre candidate post,
    siteCandidateKeys site resolvedPath directoryHint = pre ++ candidate :: post →
    (∀ d ∈ pre, publicAt c site.bucketName d.key = none) → validateObjectKey candidate.key = .ok ()

/-- With the fallback every candidate is served with status 200. -/
theorem statusCode_of_spa (hspa : site.spaFallback = true) {resolvedPath : String}
    {directoryHint : Bool} {candidate : SiteCandidate}
    (h : candidate ∈ siteCandidateKeys site resolvedPath directoryHint) :
    candidate.statusCode = 200 := by
  rw [siteCandidateKeys_eq] at h
  obtain ⟨answer, hanswer, rfl⟩ := List.mem_map.mp h
  refine if_neg ?_
  rintro rfl
  have happlies := (List.mem_filter.mp hanswer).2
  rw [Answer.applies, hspa, Bool.not_true, Bool.and_false, Bool.false_and] at happlies
  exact Bool.false_ne_true happlies

/-- The index document is always among the candidates of such a site. -/
theorem index_mem_of_spa (hspa : site.spaFallback = true) (resolvedPath : String)
    (directoryHint : Bool) :
    ∃ candidate ∈ siteCandidateKeys site resolvedPath directoryHint,
      candidate.key = site.rootPrefix ++ site.indexDocument := by
  rw [siteCandidateKeys_eq]
  by_cases hroot : resolvedPath = ""
  · refine ⟨_, List.mem_map_of_mem (a := .directoryIndex) ?_, ?_⟩
    · exact List.mem_filter.mpr ⟨by decide, rfl⟩
    · rw [Answer.candidate, Answer.path, if_pos hroot]
  · refine ⟨_, List.mem_map_of_mem (a := .spaFallback) ?_, rfl⟩
    refine List.mem_filter.mpr ⟨by decide, ?_⟩
    rw [Answer.applies, hspa, Bool.and_true]
    exact bne_iff_ne.mpr hroot

/-- **The fallback** of a single-page site answers a path exactly when none of the keys
    tried on the way is refused. -/
theorem spa_fallback_total {c₀ : Tables k} {input : SiteInput} {domains : List String}
    (hbuild : buildSiteInput c₀ input = .ok (site, domains)) (henabled : site.enabled = true)
    (hspa : site.spaFallback = true) (hopen : Openable c storageOpen) {index : Object}
    (hindex : publicAt c site.bucketName (site.rootPrefix ++ site.indexDocument) = some index)
    {requestPath resolvedPath : String} {directoryHint : Bool}
    (hpath : normalizeWebsiteRequestPath requestPath = .ok (resolvedPath, directoryHint)) :
    (∃ content, openContent c storageOpen (some site) requestPath = .ok content
        ∧ content.statusCode = 200)
      ↔ NoneRefused c site resolvedPath directoryHint := by
  have hbucket := (buildSiteInput_ok hbuild).validBucket
  rw [openContent_of_path henabled hpath]
  constructor
  · rintro ⟨content, h, -⟩ pre candidate post hsplit hnone
    obtain ⟨⟨pre', served, post', hserved, hpre', hkey, hpublic, -⟩, -⟩ :=
      openFirst_ok hopen hbucket h
    rw [hsplit] at hserved
    -- a candidate before the served one was accepted, one behind it is not asked about
    rcases List.append_eq_append_iff.mp hserved with ⟨mid, rfl, hmid⟩ | ⟨mid, rfl, hmid⟩
    · cases mid with
      | nil => exact (List.cons.inj hmid).1 ▸ hkey
      | cons d mid =>
          have hd : candidate = d := (List.cons.inj hmid).1
          exact (hpre' candidate (hd ▸ List.mem_append_right _ List.mem_cons_self)).1
    · cases mid with
      | nil => exact (List.cons.inj hmid).1 ▸ hkey
      | cons d mid =>
          have hd : served = d := (List.cons.inj hmid).1
          have hserved := hnone served (hd ▸ List.mem_append_right _ List.mem_cons_self)
          exact nomatch hserved.symm.trans hpublic
  -- the first candidate that is public is served, the index at the latest
  · intro hall
    obtain ⟨last, hlast, hlastKey⟩ := index_mem_of_spa hspa resolvedPath directoryHint
    have hsome : ((siteCandidateKeys site resolvedPath directoryHint).find? fun d =>
        (publicAt c site.bucketName d.key).isSome).isSome = true := by
      refine List.find?_isSome.mpr ⟨last, hlast, ?_⟩
      rw [hlastKey, hindex]
      rfl
    obtain ⟨first, hfirst⟩ := Option.isSome_iff_exists.mp hsome
    obtain ⟨hpublic, pre, post, hsplit, hpre⟩ := List.find?_eq_some_iff_append.mp hfirst
    obtain ⟨o, ho⟩ := Option.isSome_iff_exists.mp hpublic
    have hnone : ∀ d ∈ pre, publicAt c site.bucketName d.key = none := fun d hd =>
      Option.not_isSome_iff_eq_none.mp (by simpa using hpre d hd)
    have hkeys : ∀ d ∈ pre, validateObjectKey d.key = .ok () := by
      intro d hd
      obtain ⟨front, back, rfl⟩ := List.append_of_mem hd
      refine hall front d (back ++ first :: post) ?_ fun e he => hnone e (List.mem_append_left _ he)
      rw [hsplit, List.append_assoc]
      rfl
    obtain ⟨content, hcontent, -, hstatus⟩ := openFirst_serves hopen hbucket
      (hall pre first post hsplit hnone) ho post fun d hd => ⟨hkeys d hd, hnone d hd⟩
    have hmem : first ∈ siteCandidateKeys site resolvedPath directoryHint :=
      hsplit ▸ List.mem_append_right _ List.mem_cons_self
    exact ⟨content, hsplit ▸ hcontent, hstatus.trans (statusCode_of_spa hspa hmem)⟩

theorem www_index : publicAt www app.bucketName (app.rootPrefix ++ app.indexDocument)
    = www.objects.rows.head? := by
  decide

/-- `/app/new` has no object and is answered with status 200. -/
theorem spa_fallback_total_app :
    (∃ content, openContent www (fun path => (.ok path : Except Err String)) (some app) "/app/new"
        = .ok content ∧ content.statusCode = 200)
      ↔ NoneRefused www app "app/new" false :=
  spa_fallback_total app_built rfl rfl www_openable www_index (by decide)

/-- A route with two dots in a row: the first candidate is refused. -/
theorem spa_fallback_refused :
    buildSiteInput www appInput = .ok (app, []) ∧ app.enabled = true ∧ app.spaFallback = true
      ∧ (publicAt www app.bucketName (app.rootPrefix ++ app.indexDocument)).isSome = true
      ∧ normalizeWebsiteRequestPath "/v1..v2" = .ok ("v1..v2", false)
      ∧ ¬ ∃ content,
        openContent www (fun path => (.ok path : Except Err String)) (some app) "/v1..v2"
          = .ok content := by
  refine ⟨app_built, rfl, rfl, by decide, by decide, ?_⟩
  rintro ⟨content, h⟩
  have hrefused : openContent www (fun path => (.ok path : Except Err String)) (some app) "/v1..v2"
      = .error (invalidObjectKey "object key must not contain path traversal") := rfl
  exact nomatch hrefused.symm.trans h

end SiteServing
