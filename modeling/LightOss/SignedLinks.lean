import LightOss.Addressable
import LightOss.ByteText
import LightOss.Decimal

/-! # Signed links — what a signature is for, and the way a link takes back

    The signer joins bucket, key and expiry with newlines; only the key may hold one.
    A link carries the key percent-encoded segment by segment, the router decodes
    the path once, and the handler checks the signature of what it reads.

    The payload is read from both ends, so it is of one triple only
    (`payload_injective`).  The way back goes piece by piece: the path (`linkPath`), the
    two parameters (`query_encodeValues`), and the route with both (`route_link`). -/

namespace SignedLinks

open ByteText Decimal Fallible LedgerRows Validation ObjectKeys Addressable

/-! ## The signer -/

-- HMAC-SHA256 of a text under the secret, in hex
variable (mac : String → String)

/-- What `sign` writes to the MAC. -/
def payload (method bucketName objectKey : String) (expiresAt : Int) : String :=
  method ++ "\n" ++ bucketName ++ "\n" ++ objectKey ++ "\n" ++ String.ofList (printInt expiresAt)

/-- `sign`: the code of the joined payload, in hexadecimal. -/
def sign (method bucketName objectKey : String) (expiresAt : Int) : String :=
  mac (payload method bucketName objectKey expiresAt)

def signDownload (bucketName objectKey : String) (expiresAt : Int) : String :=
  sign mac "GET" bucketName objectKey expiresAt

/-- `Signer.VerifyDownload`; the comparison takes constant time. -/
def signerVerifies (method bucketName objectKey : String) (expiresAt : Int) (provided : String) :
    Bool :=
  sign mac method bucketName objectKey expiresAt == provided

/-- The one error of a signature that is not the link's. -/
def invalidSignature : Err := .app 401 "invalid_signature" "signature is invalid"

/-- `SignService.VerifyDownload` at time `now`. -/
def verifyDownload (bucketName objectKey : String) (expiresAt : Int) (signature : String)
    (now : Time) : Except Err Unit := do
  ensure (¬ (expiresAt ≤ 0 ∨ signature = "")) invalidSignature
  ensure (¬ expiresAt < unixSeconds now) (.app 401 "signature_expired" "signature has expired")
  ensure (signerVerifies mac "GET" bucketName objectKey expiresAt signature = true) invalidSignature

/-! ## The escapes of a link -/

/-- The bytes no part of a URL escapes. -/
def unreserved (b : UInt8) : Bool :=
  (97 ≤ b && b ≤ 122) || (65 ≤ b && b ≤ 90) || (48 ≤ b && b ≤ 57)
    || b ∈ "-_.~".toList.map fun c => UInt8.ofNat c.toNat

/-- The bytes of a path segment that stay. -/
def segmentByte (b : UInt8) : Bool :=
  unreserved b || b ∈ "$&+:=@".toList.map fun c => UInt8.ofNat c.toNat

/-- `url.PathEscape`. -/
def pathEscape (s : String) : String :=
  String.ofList (escape segmentByte false (encodeUtf8 s.toList))

/-- `url.QueryEscape`. -/
def queryEscape (s : String) : String :=
  String.ofList (escape unreserved true (encodeUtf8 s.toList))

/-- `Values.Encode` of the two parameters of a link, whose names it sorts. -/
def encodeValues (expiresAt : Int) (signature : String) : String :=
  "expires=" ++ queryEscape (String.ofList (printInt expiresAt)) ++ "&signature="
    ++ queryEscape signature

/-- `NewSignService`: the signer with its two lifetimes. -/
def signService (defaultTTL maxTTL : Int) : SignService where
  signDownload := signDownload mac
  pathEscape := pathEscape
  encodeValues := encodeValues
  defaultTTL := defaultTTL
  maxTTL := maxTTL

/-! ## The request a link makes -/

/-- What the handler reads: `c.Param("bucket")`, `c.Param("key")` and two `c.Query`. -/
structure DownloadRequest where
  bucket : String
  key : String
  expires : String
  signature : String

/-- `strings.Cut` at a character. -/
def cut (sep : Char) (text : List Char) : List Char × List Char :=
  (text.takeWhile (· != sep), (text.dropWhile (· != sep)).drop 1)

/-- The router's match of a fixed piece of the path. -/
def stripPrefix (pfx text : List Char) : Option (List Char) :=
  if pfx.isPrefixOf text then some (text.drop pfx.length) else none

/-- One parameter of `url.ParseQuery`; what cannot be read is passed over. -/
def parsePair (text : List Char) : Option (String × String) :=
  if text = [] ∨ ';' ∈ text then none
  else do
    let name ← unescape true (cut '=' text).1
    let value ← unescape true (cut '=' text).2
    return (String.ofList (decodeUtf8 name), String.ofList (decodeUtf8 value))

/-- `c.Query`: the first value of the name. -/
def query (rawQuery : List Char) (name : String) : String :=
  match ((rawQuery.splitOn '&').filterMap parsePair).find? fun pair => pair.1 == name with
  | some pair => pair.2
  | none => ""

/-- The route `/api/v1/buckets/:bucket/objects/*key` on the decoded path. -/
def route (url : String) : Option DownloadRequest := do
  let (rawPath, rawQuery) := cut '?' url.toList
  let path ← unescape false rawPath
  let rest ← stripPrefix "/api/v1/buckets/".toList (decodeUtf8 path)
  let (bucket, rest) := (rest.takeWhile (· != '/'), rest.dropWhile (· != '/'))
  let key ← stripPrefix "/objects".toList rest
  if key.head? = some '/' then
    return {
      bucket := String.ofList bucket
      key := String.ofList key
      expires := query rawQuery "expires"
      signature := query rawQuery "signature" }
  else none

/-- `normalizeObjectKey`: the wildcard keeps its leading slash. -/
def normalizeObjectKey (raw : String) : String := trimPrefix raw "/"

/-- `expiresAt, _ := strconv.ParseInt(raw, 10, 64)`: the nearest value when it is out of
    range, zero when it is none. -/
def parseExpires (raw : String) : Int :=
  match parseSigned raw.toList with
  | some n => max (-2 ^ 63) (min n (2 ^ 63 - 1))
  | none => 0

/-- The check of `serveObject` on a request without a bearer token. -/
def verifyRequest (request : DownloadRequest) (now : Time) : Except Err Unit :=
  verifyDownload mac request.bucket (normalizeObjectKey request.key) (parseExpires request.expires)
    request.signature now

/-! ## The payload -/

/-- A list is cut in one way at the first occurrence of a separator. -/
theorem cut_unique {α : Type} {a : α} : ∀ {front front' back back' : List α},
    a ∉ front → a ∉ front' →
    front ++ a :: back = front' ++ a :: back' → front = front' ∧ back = back' := by
  intro front
  induction front with
  | nil =>
      intro front' back back' _ hfree h
      cases front' with
      | nil => exact ⟨rfl, (List.cons.inj h).2⟩
      | cons b rest => exact absurd ((List.cons.inj h).1 ▸ List.mem_cons_self) hfree
  | cons b front ih =>
      intro front' back back' hfree hfree' h
      cases front' with
      | nil => exact absurd ((List.cons.inj h).1 ▸ List.mem_cons_self) hfree
      | cons b' front' =>
          obtain ⟨hb, hrest⟩ := List.cons.inj h
          obtain ⟨hfront, hback⟩ := ih (fun hm => hfree (List.mem_cons_of_mem _ hm))
            (fun hm => hfree' (List.mem_cons_of_mem _ hm)) hrest
          exact ⟨congrArg₂ _ hb hfront, hback⟩

/-- The characters of a bucket name. -/
theorem bucketName_chars {name : String} (h : validateBucketName name = .ok ()) :
    ∀ c ∈ name.toList, lowerAlnum c = true ∨ c = '.' ∨ c = '-' := by
  have hname : bucketNamePattern name = true := ensure_eq_ok.mp h
  rw [bucketNamePattern] at hname
  cases hchars : name.toList with
  | nil => exact nofun
  | cons first rest =>
      rw [hchars] at hname
      dsimp only at hname
      rw [Bool.and_eq_true, Bool.and_eq_true, Bool.and_eq_true] at hname
      refine List.forall_mem_cons.mpr ⟨Or.inl hname.1.1.1, fun c hc => ?_⟩
      have hc := List.all_eq_true.mp hname.2 c hc
      simpa [Bool.or_eq_true, or_assoc] using hc

/-- No sign of the payload or of a link occurs in a bucket name. -/
theorem bucketName_free {name : String} (h : validateBucketName name = .ok ()) :
    ∀ c ∈ name.toList, c ∉ ['\n', '/', '?', '%'] := by
  intro c hc hmem
  rcases bucketName_chars h c hc with hc | rfl | rfl
  · have hsigns : ∀ c ∈ ['\n', '/', '?', '%'], lowerAlnum c = false :=
      forall_chars (by decide)
    rw [hsigns c hmem] at hc
    exact nomatch hc
  · exact absurd hmem (by decide)
  · exact absurd hmem (by decide)

/-- A printed number holds no newline, so the payload ends in the expiry. -/
theorem newline_not_mem_printInt (n : Int) : '\n' ∉ printInt n := by
  intro h
  rcases mem_printInt h with h | h
  · exact absurd h (by decide)
  · exact absurd h (by decide)

/-- **The payload** is of one bucket, key and expiry only. -/
theorem payload_injective {method b b' key key' : String} {expiresAt expiresAt' : Int}
    (hb : validateBucketName b = .ok ()) (hb' : validateBucketName b' = .ok ())
    (h : payload method b key expiresAt = payload method b' key' expiresAt') :
    b = b' ∧ key = key' ∧ expiresAt = expiresAt' := by
  have hnewline : ∀ {name : String}, validateBucketName name = .ok () → '\n' ∉ name.toList :=
    fun hname hc => bucketName_free hname _ hc (by decide)
  have hchars : ∀ name key (e : Int), (payload method name key e).toList
      = (method ++ "\n").toList ++ (name.toList ++ '\n' :: (key.toList ++ '\n' :: printInt e)) := by
    intro name key e
    simp only [payload, String.toList_append, String.toList_ofList, List.append_assoc]
    rfl
  have hlist := congrArg String.toList h
  rw [hchars, hchars] at hlist
  obtain ⟨hbucket, hrest⟩ := cut_unique (hnewline hb) (hnewline hb') (List.append_cancel_left hlist)
  -- the expiry stands behind the last newline
  have hrev := congrArg List.reverse hrest
  rw [List.reverse_append, List.reverse_append, List.reverse_cons, List.reverse_cons,
    List.append_assoc, List.append_assoc] at hrev
  obtain ⟨hexpiry, hkey⟩ := cut_unique
    (fun hc => newline_not_mem_printInt _ (List.mem_reverse.mp hc))
    (fun hc => newline_not_mem_printInt _ (List.mem_reverse.mp hc)) hrev
  exact ⟨String.toList_inj.mp hbucket, String.toList_inj.mp (List.reverse_injective hkey),
    printInt_injective (List.reverse_injective hexpiry)⟩

/-! ## The link and back -/

/-- A fact about every byte, for a table of 256 rows. -/
theorem forall_byte {P : UInt8 → Prop} (h : ∀ n < 256, P (UInt8.ofNat n)) (b : UInt8) : P b := by
  have hb := h b.toNat b.toNat_lt
  rwa [UInt8.ofNat_toNat] at hb

/-- The bytes of a path segment that stand for themselves can be read back. -/
theorem keepable_segment : Keepable segmentByte false :=
  forall_byte (by decide +kernel)

theorem keepable_unreserved : Keepable unreserved true :=
  forall_byte (by decide +kernel)

/-- An escaped segment holds none of the signs that end it. -/
theorem segment_free {bytes : List UInt8} {c : Char} (h : c ∈ escape segmentByte false bytes) :
    c ≠ '?' ∧ c ≠ '/' := by
  have hkept : ∀ b, segmentByte b = true → Char.ofNat b.toNat ≠ '?' ∧ Char.ofNat b.toNat ≠ '/' :=
    forall_byte (by decide +kernel)
  have hdigits : ∀ c ∈ "0123456789ABCDEF".toList, c ≠ '?' ∧ c ≠ '/' :=
    forall_chars (by decide)
  rcases mem_escape h with ⟨b, hb, rfl⟩ | rfl | rfl | hc
  · exact hkept b hb
  · decide
  · decide
  · exact hdigits c hc

/-- An escaped value holds none of the signs that end it. -/
theorem value_free {bytes : List UInt8} {c : Char} (h : c ∈ escape unreserved true bytes) :
    c ≠ '&' ∧ c ≠ '=' ∧ c ≠ ';' := by
  have hkept : ∀ b, unreserved b = true → Char.ofNat b.toNat ≠ '&' ∧ Char.ofNat b.toNat ≠ '='
      ∧ Char.ofNat b.toNat ≠ ';' :=
    forall_byte (by decide +kernel)
  have hdigits : ∀ c ∈ "0123456789ABCDEF".toList, c ≠ '&' ∧ c ≠ '=' ∧ c ≠ ';' :=
    forall_chars (by decide)
  rcases mem_escape h with ⟨b, hb, rfl⟩ | rfl | rfl | hc
  · exact hkept b hb
  · decide
  · decide
  · exact hdigits c hc

/-- Segments escaped one by one and joined decode to the joined segments. -/
theorem unescape_joined : ∀ parts : List (List Char),
    unescape false
      (List.intercalate ['/'] (parts.map fun p => escape segmentByte false (encodeUtf8 p)))
      = some (encodeUtf8 (List.intercalate ['/'] parts))
  | [] => rfl
  | [p] => by
      rw [List.map_singleton, List.intercalate_singleton, List.intercalate_singleton]
      exact unescape_escape keepable_segment _
  | p :: q :: rest => by
      have ih := unescape_joined (q :: rest)
      rw [List.map_cons] at ih
      rw [List.map_cons, List.map_cons, List.intercalate_cons_cons, List.intercalate_cons_cons,
        List.append_assoc, unescape_escape_append keepable_segment, List.singleton_append,
        unescape_literal false (by decide) nofun, ih, Option.map_some, Option.map_some,
        List.append_assoc, encodeUtf8_append]
      rfl

/-- A character of a joined path is a slash or one of a segment. -/
theorem mem_intercalate {c : Char} : ∀ {parts : List (List Char)},
    c ∈ List.intercalate ['/'] parts → c = '/' ∨ ∃ p ∈ parts, c ∈ p
  | [], h => nomatch h
  | [p], h => by
      rw [List.intercalate_singleton] at h
      exact Or.inr ⟨p, List.mem_cons_self, h⟩
  | p :: q :: rest, h => by
      rw [List.intercalate_cons_cons, List.append_assoc] at h
      rcases List.mem_append.mp h with h | h
      · exact Or.inr ⟨p, List.mem_cons_self, h⟩
      · rcases List.mem_cons.mp h with h | h
        · exact Or.inl h
        · rcases mem_intercalate h with h | ⟨q', hq', h⟩
          · exact Or.inl h
          · exact Or.inr ⟨q', List.mem_cons_of_mem _ hq', h⟩

/-- The path of a link: what the router decodes is the plain path. -/
theorem linkPath {bucketName : String} (hbucket : validateBucketName bucketName = .ok ())
    (objectKey : String) :
    let text := ("/api/v1/buckets/" ++ bucketName ++ "/objects/"
      ++ joinSegments ((segments objectKey).map pathEscape)).toList
    '?' ∉ text ∧ unescape false text = some (encodeUtf8
      ("/api/v1/buckets/".toList
          ++ (bucketName.toList ++ ("/objects/".toList ++ objectKey.toList)))) := by
  have hparts : (joinSegments ((segments objectKey).map pathEscape)).toList
      = List.intercalate ['/'] (((segments objectKey).map String.toList).map
        fun p => escape segmentByte false (encodeUtf8 p)) := by
    rw [joinSegments, String.toList_ofList, List.map_map, List.map_map]
    congr 1
    refine List.map_congr_left fun s _ => ?_
    exact String.toList_ofList
  have hkey :
      List.intercalate ['/'] ((segments objectKey).map String.toList) = objectKey.toList := by
    have hjoin := congrArg String.toList (joinSegments_segments objectKey)
    rwa [joinSegments, String.toList_ofList] at hjoin
  have htext : ("/api/v1/buckets/" ++ bucketName ++ "/objects/"
      ++ joinSegments ((segments objectKey).map pathEscape)).toList
      = ("/api/v1/buckets/".toList ++ (bucketName.toList ++ "/objects/".toList))
        ++ List.intercalate ['/'] (((segments objectKey).map String.toList).map
          fun p => escape segmentByte false (encodeUtf8 p)) := by
    simp only [String.toList_append, hparts, List.append_assoc]
  -- the fixed parts and the bucket name need no escaping
  have hplain : ∀ c ∈ "/api/v1/buckets/".toList ++ (bucketName.toList ++ "/objects/".toList),
      c ≠ '?' ∧ c ≠ '%' := by
    have hroute : ∀ c ∈ "/api/v1/buckets/".toList ++ "/objects/".toList, c ≠ '?' ∧ c ≠ '%' :=
      forall_chars (by decide)
    intro c hc
    rcases List.mem_append.mp hc with hc | hc
    · exact hroute c (List.mem_append_left _ hc)
    · rcases List.mem_append.mp hc with hc | hc
      · have hfree := bucketName_free hbucket c hc
        refine ⟨?_, ?_⟩
        · rintro rfl
          exact hfree (by decide)
        · rintro rfl
          exact hfree (by decide)
      · exact hroute c (List.mem_append_right _ hc)
  rw [htext]
  refine ⟨fun hc => ?_, ?_⟩
  · rcases List.mem_append.mp hc with hc | hc
    · exact (hplain _ hc).1 rfl
    · rcases mem_intercalate hc with hc | ⟨p, hp, hc⟩
      · exact absurd hc (by decide)
      · obtain ⟨s, -, rfl⟩ := List.mem_map.mp hp
        exact (segment_free hc).1 rfl
  · rw [unescape_plain false (fun c hc => ⟨(hplain c hc).2, fun h => by cases h⟩),
      unescape_joined, hkey,
      Option.map_some, ← encodeUtf8_append, List.append_assoc, List.append_assoc]

/-- Cutting at the first separator undoes the joining. -/
theorem cut_append {sep : Char} {front : List Char} (hfree : sep ∉ front) (back : List Char) :
    cut sep (front ++ sep :: back) = (front, back) := by
  have hkeep : ∀ c ∈ front, (c != sep) = true := by
    intro c hc
    rw [bne_iff_ne]
    rintro rfl
    exact hfree hc
  rw [cut, List.takeWhile_append_of_pos hkeep, List.dropWhile_append_of_pos hkeep,
    List.takeWhile_cons_of_neg (by rw [bne_self_eq_false]; decide),
    List.dropWhile_cons_of_neg (by rw [bne_self_eq_false]; decide), List.append_nil]
  rfl

/-- One parameter of the link. -/
theorem parsePair_escaped {name : List Char} (hne : name ≠ [])
    (hname : ∀ c ∈ name, c ∉ ['%', '+', '=', ';']) (value : List Char) :
    parsePair (name ++ '=' :: escape unreserved true (encodeUtf8 value))
      = some (String.ofList name, String.ofList value) := by
  have hsigns : ∀ c ∈ name, c ≠ '%' ∧ (true = true → c ≠ '+') := by
    intro c hc
    refine ⟨?_, ?_⟩
    · rintro rfl
      exact hname _ hc (by decide)
    · rintro - rfl
      exact hname _ hc (by decide)
  have hplain := unescape_plain true hsigns []
  rw [List.append_nil] at hplain
  rw [parsePair, if_neg, cut_append fun h => hname _ h (by decide), hplain,
    unescape_escape keepable_unreserved]
  · show some (String.ofList (decodeUtf8 (encodeUtf8 name ++ [])), _) = _
    rw [List.append_nil, decodeUtf8_encodeUtf8, decodeUtf8_encodeUtf8]
  · rintro (hnil | hc)
    · exact hne (List.append_eq_nil_iff.mp hnil).1
    · rcases List.mem_append.mp hc with hc | hc
      · exact hname _ hc (by decide)
      · rcases List.mem_cons.mp hc with hc | hc
        · exact absurd hc (by decide)
        · exact (value_free hc).2.2 rfl

/-- The router matches the path it was given a piece of. -/
theorem stripPrefix_append (pfx text : List Char) : stripPrefix pfx (pfx ++ text) = some text := by
  have hpfx : pfx.isPrefixOf (pfx ++ text) = true :=
    List.isPrefixOf_iff_prefix.mpr (List.prefix_append _ _)
  rw [stripPrefix, if_pos hpfx, List.drop_left]

/-- The two parameters of the link, read back. -/
theorem query_encodeValues (expiresAt : Int) (signature : String) :
    query (encodeValues expiresAt signature).toList "expires" = String.ofList (printInt expiresAt)
      ∧ query (encodeValues expiresAt signature).toList "signature" = signature := by
  have hchars : (encodeValues expiresAt signature).toList
      = ("expires".toList ++ '=' :: escape unreserved true (encodeUtf8 (printInt expiresAt)))
        ++ '&' :: ("signature".toList
          ++ '=' :: escape unreserved true (encodeUtf8 signature.toList)) := by
    simp only [encodeValues, queryEscape, String.toList_append, String.toList_ofList,
      List.append_assoc]
    rfl
  have hfree : ∀ {name : List Char} {bytes : List UInt8}, '&' ∉ name →
      '&' ∉ name ++ '=' :: escape unreserved true bytes := by
    intro name bytes hname h
    rcases List.mem_append.mp h with h | h
    · exact hname h
    · rcases List.mem_cons.mp h with h | h
      · exact absurd h (by decide)
      · exact (value_free h).1 rfl
  -- an escaped value holds no `&`, so the cut is between the parameters
  have hpairs : ((encodeValues expiresAt signature).toList.splitOn '&').filterMap parsePair
      = [("expires", String.ofList (printInt expiresAt)), ("signature", signature)] := by
    rw [hchars, List.splitOn_append_cons_self, List.splitOn_eq_singleton (hfree (by decide)),
      List.splitOn_eq_singleton (hfree (by decide)), List.singleton_append,
      List.filterMap_cons_some (parsePair_escaped (by decide) (forall_chars (by decide)) _),
      List.filterMap_cons_some (parsePair_escaped (by decide) (forall_chars (by decide)) _),
      List.filterMap_nil, String.ofList_toList (s := signature)]
    rfl
  refine ⟨?_, ?_⟩
  · rw [query, hpairs]
    rfl
  · rw [query, hpairs]
    rfl

/-- **The link back**: the router reads the bucket, the key behind a slash, the expiry and
    the signature it was made of. -/
theorem route_link {bucketName : String} (hbucket : validateBucketName bucketName = .ok ())
    (objectKey : String) (expiresAt : Int) (signature : String) :
    route ("/api/v1/buckets/" ++ bucketName ++ "/objects/"
        ++ joinSegments ((segments objectKey).map pathEscape) ++ "?"
        ++ encodeValues expiresAt signature)
      = some {
          bucket := bucketName
          key := String.ofList ('/' :: objectKey.toList)
          expires := String.ofList (printInt expiresAt)
          signature := signature } := by
  obtain ⟨hmark, hpath⟩ := linkPath hbucket objectKey
  obtain ⟨hexpires, hsignature⟩ := query_encodeValues expiresAt signature
  have hslash : ∀ c ∈ bucketName.toList, (c != '/') = true := by
    intro c hc
    rw [bne_iff_ne]
    rintro rfl
    exact bucketName_free hbucket _ hc (by decide)
  have hurl : ("/api/v1/buckets/" ++ bucketName ++ "/objects/"
        ++ joinSegments ((segments objectKey).map pathEscape) ++ "?"
        ++ encodeValues expiresAt signature).toList
      = ("/api/v1/buckets/" ++ bucketName ++ "/objects/"
        ++ joinSegments ((segments objectKey).map pathEscape)).toList
        ++ '?' :: (encodeValues expiresAt signature).toList := by
    rw [String.toList_append, String.toList_append, List.append_assoc]
    rfl
  have hrest : bucketName.toList ++ ("/objects/".toList ++ objectKey.toList)
      = bucketName.toList ++ '/' :: ("objects/".toList ++ objectKey.toList) := rfl
  have htake : (bucketName.toList ++ ("/objects/".toList ++ objectKey.toList)).takeWhile (· != '/')
      = bucketName.toList := by
    rw [hrest, List.takeWhile_append_of_pos hslash, List.takeWhile_cons_of_neg (by decide),
      List.append_nil]
  have hdrop : (bucketName.toList ++ ("/objects/".toList ++ objectKey.toList)).dropWhile (· != '/')
      = "/objects".toList ++ '/' :: objectKey.toList := by
    rw [hrest, List.dropWhile_append_of_pos hslash, List.dropWhile_cons_of_neg (by decide)]
    rfl
  rw [route, hurl, cut_append hmark]
  dsimp only
  rw [hpath, Option.bind_eq_bind, Option.bind_some, decodeUtf8_encodeUtf8, stripPrefix_append,
    Option.bind_eq_bind, Option.bind_some, htake, hdrop, stripPrefix_append, Option.bind_some,
    List.head?_cons, if_pos rfl, hexpires, hsignature, String.ofList_toList]
  rfl

/-- The one slash that the router keeps is taken off, none of the key's own. -/
theorem normalizeObjectKey_slash (objectKey : String) :
    normalizeObjectKey (String.ofList ('/' :: objectKey.toList)) = objectKey := by
  have hchars : (String.ofList ('/' :: objectKey.toList)).toList = '/' :: objectKey.toList :=
    String.toList_ofList
  have hpfx : hasPrefix (String.ofList ('/' :: objectKey.toList)) "/" = true := by
    rw [hasPrefix, hchars]
    rfl
  rw [normalizeObjectKey, trimPrefix, if_pos hpfx, hchars]
  exact String.ofList_toList

/-- An expiry within 64 bits is read back. -/
theorem parseExpires_printInt {n : Int} (hlow : -2 ^ 63 ≤ n) (hhigh : n ≤ 2 ^ 63 - 1) :
    parseExpires (String.ofList (printInt n)) = n := by
  rw [parseExpires, String.toList_ofList, parseSigned_printInt]
  dsimp only
  rw [min_eq_left hhigh, max_eq_right hlow]

/-- A Unix time is an `int64`. -/
theorem unixSeconds_range (t : Time) :
    -2 ^ 63 ≤ unixSeconds t ∧ unixSeconds t ≤ 2 ^ 63 - 1 := by
  have hlow := Int.le_bmod (x := t / 1000000000) (m := 2 ^ 64) (by norm_num)
  have hhigh := Int.bmod_lt (x := t / 1000000000) (m := 2 ^ 64) (by norm_num)
  rw [unixSeconds]
  norm_num at hlow hhigh ⊢
  omega

/-! ## Verification -/

/-- When a download verifies. -/
theorem verifyDownload_iff {bucketName objectKey signature : String} {expiresAt : Int}
    {now : Time} :
    verifyDownload mac bucketName objectKey expiresAt signature now = .ok ()
      ↔ 0 < expiresAt ∧ signature ≠ "" ∧ unixSeconds now ≤ expiresAt
        ∧ signature = signDownload mac bucketName objectKey expiresAt := by
  have hsteps : verifyDownload mac bucketName objectKey expiresAt signature now = .ok ()
      ↔ ¬ (expiresAt ≤ 0 ∨ signature = "") ∧ ¬ expiresAt < unixSeconds now
        ∧ signerVerifies mac "GET" bucketName objectKey expiresAt signature = true := by
    rw [verifyDownload]
    refine ⟨fun h => ?_, fun ⟨hgiven, hlive, hsigned⟩ => ?_⟩
    · obtain ⟨_, hgiven, h⟩ := bind_eq_ok.mp h
      obtain ⟨_, hlive, hsigned⟩ := bind_eq_ok.mp h
      exact ⟨ensure_eq_ok.mp hgiven, ensure_eq_ok.mp hlive, ensure_eq_ok.mp hsigned⟩
    · exact bind_eq_ok.mpr ⟨(), ensure_eq_ok.mpr hgiven,
        bind_eq_ok.mpr ⟨(), ensure_eq_ok.mpr hlive, ensure_eq_ok.mpr hsigned⟩⟩
  rw [hsteps, not_or, Int.not_le, Int.not_lt, signerVerifies, beq_iff_eq, and_assoc,
    signDownload, eq_comm (b := signature)]

/-- A signature verifies for one bucket, key and expiry only. -/
theorem signature_of_one (hmac : Function.Injective mac) {b b' key key' signature : String}
    {expiresAt expiresAt' : Int} {t t' : Time} (hb : validateBucketName b = .ok ())
    (hb' : validateBucketName b' = .ok ())
    (h : verifyDownload mac b key expiresAt signature t = .ok ())
    (h' : verifyDownload mac b' key' expiresAt' signature t' = .ok ()) :
    b = b' ∧ key = key' ∧ expiresAt = expiresAt' := by
  obtain ⟨-, -, -, hsigned⟩ := (verifyDownload_iff mac).mp h
  obtain ⟨-, -, -, hsigned'⟩ := (verifyDownload_iff mac).mp h'
  have hsame : sign mac "GET" b key expiresAt = sign mac "GET" b' key' expiresAt' :=
    hsigned.symm.trans hsigned'
  exact payload_injective hb hb' (hmac hsame)

/-- What `GenerateDownloadPath` returns. -/
theorem generateDownloadPath_ok {defaultTTL maxTTL : Int} {bucketName objectKey link : String}
    {expiresInSeconds expiresAt : Int} {now : Time}
    (h : generateDownloadPath (signService mac defaultTTL maxTTL) bucketName objectKey
      expiresInSeconds now = .ok (link, expiresAt)) :
    validateBucketName bucketName = .ok () ∧ validateObjectKey objectKey = .ok ()
      ∧ (if expiresInSeconds ≤ 0 then defaultTTL else expiresInSeconds) ≤ maxTTL
      ∧ expiresAt = unixSeconds
        (now + seconds (if expiresInSeconds ≤ 0 then defaultTTL else expiresInSeconds))
      ∧ link = "/api/v1/buckets/" ++ bucketName ++ "/objects/"
        ++ joinSegments ((segments objectKey).map pathEscape) ++ "?"
        ++ encodeValues expiresAt (signDownload mac bucketName objectKey expiresAt) := by
  rw [generateDownloadPath] at h
  obtain ⟨_, hbucket, h⟩ := bind_eq_ok.mp h
  obtain ⟨_, hkey, h⟩ := bind_eq_ok.mp h
  obtain ⟨_, hbound, h⟩ := bind_eq_ok.mp h
  obtain ⟨rfl, rfl⟩ := Prod.mk.inj (Except.ok.inj h)
  exact ⟨hbucket, hkey, ensure_eq_ok.mp hbound, rfl, rfl⟩

/-- A link is generated for every accepted key and lifetime. -/
theorem exists_generateDownloadPath {defaultTTL maxTTL : Int} {bucketName objectKey : String}
    {expiresInSeconds : Int} (now : Time) (hbucket : validateBucketName bucketName = .ok ())
    (hkey : validateObjectKey objectKey = .ok ())
    (hbound : (if expiresInSeconds ≤ 0 then defaultTTL else expiresInSeconds) ≤ maxTTL) :
    ∃ link expiresAt, generateDownloadPath (signService mac defaultTTL maxTTL) bucketName objectKey
      expiresInSeconds now = .ok (link, expiresAt) :=
  ⟨_, _, bind_eq_ok.mpr ⟨(), hbucket, bind_eq_ok.mpr ⟨(), hkey,
    bind_eq_ok.mpr ⟨(), ensure_eq_ok.mpr hbound, rfl⟩⟩⟩⟩

/-- **Signed links.** A signature speaks of one bucket, key and expiry; a link that was
    generated takes the same four values back, and opens until its expiry and not after.
    `mac` is injective and its hexadecimal text is never empty; clocks are past 1970. -/
theorem signed_links (hmac : Function.Injective mac) (hhex : ∀ text, mac text ≠ "") :
    (∀ b b' key key' expiresAt expiresAt',
      validateBucketName b = .ok () → validateBucketName b' = .ok () →
      payload "GET" b key expiresAt = payload "GET" b' key' expiresAt' →
      b = b' ∧ key = key' ∧ expiresAt = expiresAt')
    ∧ (∀ b b' key key' expiresAt expiresAt' signature t t',
      validateBucketName b = .ok () → validateBucketName b' = .ok () →
      verifyDownload mac b key expiresAt signature t = .ok () →
      verifyDownload mac b' key' expiresAt' signature t' = .ok () →
      b = b' ∧ key = key' ∧ expiresAt = expiresAt')
    ∧ ∀ defaultTTL maxTTL bucketName objectKey expiresInSeconds now,
      validateBucketName bucketName = .ok () → validateObjectKey objectKey = .ok () →
      ((if expiresInSeconds ≤ 0 then defaultTTL else expiresInSeconds) ≤ maxTTL →
        ∃ link expiresAt, generateDownloadPath (signService mac defaultTTL maxTTL) bucketName
          objectKey expiresInSeconds now = .ok (link, expiresAt))
      ∧ ∀ link expiresAt, generateDownloadPath (signService mac defaultTTL maxTTL) bucketName
          objectKey expiresInSeconds now = .ok (link, expiresAt) →
        ∃ request, route link = some request ∧ request.bucket = bucketName
          ∧ normalizeObjectKey request.key = objectKey ∧ parseExpires request.expires = expiresAt
          ∧ request.signature = signDownload mac bucketName objectKey expiresAt
          ∧ ∀ t, 0 < unixSeconds t →
            (verifyRequest mac request t = .ok () ↔ unixSeconds t ≤ expiresAt) := by
  refine ⟨fun b b' key key' e e' hb hb' h => payload_injective hb hb' h,
    fun b b' key key' e e' signature t t' hb hb' h h' => signature_of_one mac hmac hb hb' h h',
    fun defaultTTL maxTTL bucketName objectKey expiresIn now hbucket hkey =>
      ⟨fun hbound => exists_generateDownloadPath mac now hbucket hkey hbound,
        fun link expiresAt h => ?_⟩⟩
  obtain ⟨-, -, -, hexpiry, rfl⟩ := generateDownloadPath_ok mac h
  have hread : parseExpires (String.ofList (printInt expiresAt)) = expiresAt := by
    obtain ⟨hlow, hhigh⟩ := unixSeconds_range
      (now + seconds (if expiresIn ≤ 0 then defaultTTL else expiresIn))
    rw [← hexpiry] at hlow hhigh
    exact parseExpires_printInt hlow hhigh
  refine ⟨_, route_link hbucket objectKey expiresAt _, rfl, normalizeObjectKey_slash objectKey,
    hread, rfl, fun t ht => ?_⟩
  rw [verifyRequest, hread, normalizeObjectKey_slash, verifyDownload_iff]
  -- a live expiry lies past a clock that is past 1970
  refine ⟨fun ⟨_, _, hlive, _⟩ => hlive, fun hlive => ⟨by omega, hhex _, hlive, rfl⟩⟩

/-- The digest of one payload under the secret `secret`; of other texts only that it is
    another one. -/
def digest (text : String) : String :=
  if text = "GET\nteam-files\n2024/q1 100%.pdf\n1700000060" then
    "87633404f443c4991868ad2825663ab36553d3a3cb92d684a4f8fa31c9f5d187"
  else "-" ++ text

/-- The code of the example tells texts apart. -/
theorem digest_injective : Function.Injective digest := by
  have hother : ∀ text : String, ("-" ++ text).toList = '-' :: text.toList :=
    fun text => String.toList_append
  have hone : ∀ text : String,
      "87633404f443c4991868ad2825663ab36553d3a3cb92d684a4f8fa31c9f5d187" ≠ "-" ++ text := by
    intro text h
    have hlist := congrArg String.toList h
    rw [hother] at hlist
    exact absurd (List.cons.inj hlist).1 (by decide)
  intro a b h
  rw [digest, digest] at h
  split at h <;> split at h
  · next ha hb => exact ha.trans hb.symm
  · exact absurd h (hone b)
  · exact absurd h.symm (hone a)
  · have hlist := congrArg String.toList h
    rw [hother, hother] at hlist
    exact String.toList_inj.mp (List.cons.inj hlist).2

/-- No code of the example is empty, as the check of the parameter wants. -/
theorem digest_ne_empty (text : String) : digest text ≠ "" := by
  rw [digest]
  split
  · decide
  · intro h
    exact nomatch (String.append_eq_empty_iff.mp h).1

/-- A key with a blank and a percent sign: its link is good to the end of the last second. -/
theorem signed_links_report :
    ∃ link request, generateDownloadPath (signService digest 300 3600) "team-files"
        "2024/q1 100%.pdf" 60 1700000000000000000 = .ok (link, 1700000060)
      ∧ route link = some request
      ∧ verifyRequest digest request 1700000060999999999 = .ok ()
      ∧ verifyRequest digest request 1700000061000000000 ≠ .ok () := by
  obtain ⟨-, -, hlinks⟩ := signed_links digest digest_injective digest_ne_empty
  obtain ⟨hgenerated, hlink⟩ := hlinks 300 3600 "team-files" "2024/q1 100%.pdf" 60
    1700000000000000000 (by decide) (by decide)
  obtain ⟨link, expiresAt, hok⟩ := hgenerated (by decide)
  obtain ⟨-, -, -, hexpiry, -⟩ := generateDownloadPath_ok digest hok
  have hat : expiresAt = 1700000060 := hexpiry.trans (by decide)
  subst hat
  obtain ⟨request, hroute, -, -, -, -, hverify⟩ := hlink link _ hok
  refine ⟨link, request, hok, hroute, (hverify _ (by decide)).mpr (by decide), fun h => ?_⟩
  exact absurd ((hverify _ (by decide)).mp h) (by decide)

end SignedLinks
