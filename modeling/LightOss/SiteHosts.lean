import LightOss.SitePublishing

/-! # Site hosts — which site a host header reaches

    A domain is normalized when its site is stored, a host header when a request
    comes in, by two functions that strip white space, case, a dot and a port in an
    order of their own.  On a domain that was accepted the two agree, and the unique
    key on the stored domains leaves one site to a header.

    An accepted domain is a hostname (`hostname_of_valid`), and a hostname is its own
    normal form (`Hostname.normalized`).  What a header adds to it comes off again
    (`lower_trimmed`, `splitHostPort_join`, `normalizeRequestHost_variant`), so header
    and domain are one text for the lookup. -/

namespace SiteHosts

open Trimming KeyedTable Fallible LedgerRows Catalog Validation ObjectKeys SiteServing
open SitePublishing

variable {k : Collation}

/-! ## `net.SplitHostPort` -/

def addrError (addr why : String) : Err := .errorf ("address " ++ addr ++ ": " ++ why)

/-- The port starts behind the last colon; a host with colons of its own is in brackets. -/
def splitHostPort (hostport : String) : Except Err (String × String) := do
  let s := hostport.toList
  ensure (':' ∈ s) (addrError hostport "missing port in address")
  let i := s.length - 1 - s.reverse.idxOf ':'
  if s.head? = some '[' then
    let close := s.idxOf ']'
    ensure (']' ∈ s) (addrError hostport "missing ']' in address")
    ensure (close + 1 = i) (addrError hostport
      (if s[close + 1]? = some ':' then "too many colons in address"
        else "missing port in address"))
    ensure ('[' ∉ s.drop 1) (addrError hostport "unexpected '[' in address")
    ensure (']' ∉ s.drop (close + 1)) (addrError hostport "unexpected ']' in address")
    return (String.ofList ((s.take close).drop 1), String.ofList (s.drop (i + 1)))
  else
    ensure (':' ∉ s.take i) (addrError hostport "too many colons in address")
    ensure ('[' ∉ s) (addrError hostport "unexpected '[' in address")
    ensure (']' ∉ s) (addrError hostport "unexpected ']' in address")
    return (String.ofList (s.take i), String.ofList (s.drop (i + 1)))

/-! ## The host of a request -/

/-- `lower` is `unicode.ToLower`. -/
def normalizeRequestHost (lower : Char → Char) (host : String) : String :=
  let normalized := trimSuffix (String.ofList ((trimSpace host).toList.map lower)) "."
  if normalized = "" then ""
  else match splitHostPort normalized with
    | .ok (parsedHost, _) => trimSuffix parsedHost "."
    | .error _ => normalized

/-- `sites JOIN site_domains ON site_domains.site_id = sites.id WHERE site_domains.domain = ?`;
    a site comes once for each domain that matches. -/
def sitesOfDomain (c : Tables k) (domain : String) : List Site :=
  (c.siteDomains.select fun d => k.eq d.domain domain).flatMap fun d =>
    c.sites.select fun site => d.siteID == site.id

/-- `SiteRepository.FindByDomain`: `First` orders by the primary key. -/
def siteByDomain (c : Tables k) (domain : String) : Option Site :=
  ((sitesOfDomain c domain).mergeSort fun a b => decide (a.id ≤ b.id)).head?

/-- `SiteService.FindByDomain`. -/
def findByDomain (lower : Char → Char) (c : Tables k) (host : String) : Option Site :=
  let normalized := normalizeRequestHost lower host
  if normalized = "" then none else siteByDomain c normalized

/-! ## Characters of a hostname -/

/-- `lower` agrees with the case mapping of the domains where either gives ASCII. -/
def LowersAscii (lower : Char → Char) : Prop :=
  ∀ c, (lower c).toNat < 128 ∨ (toLower c).toNat < 128 → lower c = toLower c

/-- The characters of an accepted domain. -/
def hostChar (c : Char) : Bool := lowerAlnum c || c == '-' || c == '.'

/-- The code points of letters and digits. -/
theorem lowerAlnum_toNat {c : Char} : lowerAlnum c = true ↔
    97 ≤ c.toNat ∧ c.toNat ≤ 122 ∨ 48 ≤ c.toNat ∧ c.toNat ≤ 57 := by
  rw [lowerAlnum, Bool.or_eq_true, Bool.and_eq_true, Bool.and_eq_true]
  simp only [decide_eq_true_iff]
  exact Iff.rfl

/-- No visible ASCII character is white space. -/
theorem space_toNat {c : Char} (h : isSpace c = true) : c.toNat ≤ 32 ∨ 133 ≤ c.toNat := by
  rw [isSpace, decide_eq_true_iff] at h
  simp only [List.mem_cons, List.not_mem_nil, or_false] at h
  omega

/-- `Char.toLower` moves capital letters only. -/
theorem char_toLower_eq {c : Char} (h : c.toNat ≤ 64 ∨ 91 ≤ c.toNat) : c.toLower = c := by
  refine dif_neg ?_
  rintro ⟨hlow, hhigh⟩
  have hlow : 65 ≤ c.toNat := hlow
  have hhigh : c.toNat ≤ 90 := hhigh
  omega

/-- Lowering leaves every character but the upper-case ones, and two that fold into ASCII. -/
theorem toLower_eq {c : Char} (h : c.toNat ≤ 64 ∨ 91 ≤ c.toNat) (hkelvin : c ≠ '\u212A')
    (hdotted : c ≠ '\u0130') : toLower c = c := by
  rw [toLower, if_neg hkelvin, if_neg hdotted, char_toLower_eq h]

/-- Among the ASCII characters only the capitals change. -/
theorem toLower_ascii {c : Char} (h : c.toNat ≤ 64 ∨ 91 ≤ c.toNat) (hascii : c.toNat < 128) :
    toLower c = c := by
  refine toLower_eq h ?_ ?_
  · rintro rfl
    exact absurd hascii (by decide)
  · rintro rfl
    exact absurd hascii (by decide)

/-- What the case mapping gives as a letter or digit is not white space. -/
theorem space_of_lower {lower : Char → Char} (hlower : LowersAscii lower) {c : Char}
    (h : lowerAlnum (lower c) = true) : isSpace c = false := by
  rw [Bool.eq_false_iff]
  intro hspace
  have hnat := lowerAlnum_toNat.mp h
  have hascii : (lower c).toNat < 128 := by omega
  rw [hlower c (Or.inl hascii)] at hnat
  have hrange := space_toNat hspace
  have hkelvin : c ≠ '\u212A' := by
    rintro rfl
    exact absurd hspace (by decide)
  have hdotted : c ≠ '\u0130' := by
    rintro rfl
    exact absurd hspace (by decide)
  have hfix : toLower c = c := toLower_eq (by omega) hkelvin hdotted
  rw [hfix] at hnat
  omega

/-- A character of an accepted domain is ASCII, no capital and no colon. -/
theorem hostChar_toNat {c : Char} (h : hostChar c = true) :
    (c.toNat ≤ 64 ∨ 91 ≤ c.toNat) ∧ c.toNat < 128 ∧ c.toNat ≠ 58 := by
  rw [hostChar, Bool.or_eq_true, Bool.or_eq_true, lowerAlnum_toNat, beq_iff_eq, beq_iff_eq] at h
  rcases h with (h | rfl) | rfl
  · omega
  · decide
  · decide

/-! ## Accepted domains -/

/-- The text of a hostname: its characters, and what it begins and ends with. -/
structure Hostname (s : List Char) : Prop where
  chars : ∀ c ∈ s, hostChar c = true
  first : ∃ c rest, s = c :: rest ∧ lowerAlnum c = true
  last : ∃ front c, s = front ++ [c] ∧ lowerAlnum c = true

theorem hostChar_of_lowerAlnum {c : Char} (h : lowerAlnum c = true) : hostChar c = true := by
  rw [hostChar, h]
  rfl

/-- A label is a hostname without dots. -/
theorem hostname_of_label {label : String} (h : siteDomainLabelPattern label = true) :
    Hostname label.toList := by
  rw [siteDomainLabelPattern, Bool.and_eq_true, Bool.and_eq_true, Option.any_eq_true,
    Option.any_eq_true, List.all_eq_true] at h
  obtain ⟨⟨⟨c, hfirst, hc⟩, d, hlast, hd⟩, hall⟩ := h
  refine ⟨fun e he => ?_, ?_, ?_⟩
  · rw [hostChar, hall e he]
    rfl
  · obtain ⟨rest, hrest⟩ := List.head?_eq_some_iff.mp hfirst
    exact ⟨c, rest, hrest, hc⟩
  · obtain ⟨front, hfront⟩ := List.getLast?_eq_some_iff.mp hlast
    exact ⟨front, d, hfront, hd⟩

/-- Hostnames joined by a dot are one. -/
theorem Hostname.join {s t : List Char} (hs : Hostname s) (ht : Hostname t) :
    Hostname (s ++ '.' :: t) := by
  obtain ⟨c, rest, hfirst, hc⟩ := hs.first
  obtain ⟨front, d, hlast, hd⟩ := ht.last
  refine ⟨fun e he => ?_, ⟨c, rest ++ '.' :: t, by rw [hfirst]; rfl, hc⟩,
    ⟨s ++ '.' :: front, d, by rw [hlast, List.append_assoc]; rfl, hd⟩⟩
  rcases List.mem_append.mp he with he | he
  · exact hs.chars e he
  · rcases List.mem_cons.mp he with rfl | he
    · rfl
    · exact ht.chars e he

/-- Labels joined by dots are a hostname. -/
theorem hostname_intercalate : ∀ {labels : List (List Char)}, labels ≠ [] →
    (∀ label ∈ labels, Hostname label) → Hostname (List.intercalate ['.'] labels) := by
  intro labels
  induction labels with
  | nil => exact fun hne => absurd rfl hne
  | cons label rest ih =>
      intro _ h
      have hlabel := h label List.mem_cons_self
      cases rest with
      | nil =>
          rw [List.intercalate_singleton]
          exact hlabel
      | cons next rest =>
          rw [List.intercalate_cons_cons, List.append_assoc, List.singleton_append]
          exact hlabel.join (ih (List.cons_ne_nil _ _) fun l hl => h l (List.mem_cons_of_mem _ hl))

/-- What the pattern accepts is a hostname. -/
theorem hostname_of_valid {n : String} (h : isValidSiteDomain n = true) : Hostname n.toList := by
  rw [isValidSiteDomain, Bool.and_eq_true, List.all_map, List.all_eq_true] at h
  have hjoin : List.intercalate ['.'] (n.toList.splitOn '.') = n.toList :=
    List.intercalate_splitOn '.'
  rw [← hjoin]
  refine hostname_intercalate (List.splitOn_ne_nil _ _) fun label hlabel => ?_
  have hpattern := h.2 label hlabel
  rw [Function.comp_apply, Bool.and_eq_true] at hpattern
  have hname := hostname_of_label hpattern.2
  rw [String.toList_ofList] at hname
  exact hname

/-- A hostname has no colon, so no port is split off. -/
theorem Hostname.colon_free {s : List Char} (h : Hostname s) : ':' ∉ s :=
  fun hc => absurd (h.chars ':' hc) (by decide)

theorem map_lower {lower : Char → Char} (hlower : LowersAscii lower) {s : List Char}
    (h : ∀ c ∈ s, (c.toNat ≤ 64 ∨ 91 ≤ c.toNat) ∧ c.toNat < 128) : s.map lower = s := by
  refine (List.map_congr_left (g := id) fun c hc => ?_).trans (List.map_id _)
  obtain ⟨hrange, hascii⟩ := h c hc
  have hfix := toLower_ascii hrange hascii
  exact (hlower c (Or.inr (by rw [hfix]; exact hascii))).trans hfix

/-- A text that ends in something else keeps its end. -/
theorem trimSuffix_dot {s : String} {init : List Char} {d : Char} (h : s.toList = init ++ [d])
    (hd : d ≠ '.') : trimSuffix s "." = s := by
  rw [trimSuffix, if_neg]
  intro hsfx
  obtain ⟨front, hfront⟩ := hasSuffix_iff.mp hsfx
  exact hd (List.singleton_inj.mp (List.append_inj_right' (hfront.trans h) rfl)).symm

/-- A hostname loses no dot at its end. -/
theorem Hostname.trimSuffix {n : String} (h : Hostname n.toList) : trimSuffix n "." = n := by
  obtain ⟨front, c, hlast, hc⟩ := h.last
  refine trimSuffix_dot hlast ?_
  rintro rfl
  exact absurd hc (by decide)

theorem Hostname.ne_empty {n : String} (h : Hostname n.toList) : n ≠ "" := by
  rintro rfl
  obtain ⟨c, rest, hfirst, -⟩ := h.first
  exact nomatch hfirst

/-! ## The port -/

/-- Without a colon there is no port, so the domains lose nothing by checking the colon alone. -/
theorem splitHostPort_free {s : String} (h : ':' ∉ s.toList) :
    splitHostPort s = .error (addrError s "missing port in address") := by
  rw [splitHostPort]
  dsimp only
  rw [ensure, if_neg h]
  rfl

/-- **The port** of a host without colons and brackets is what follows the colon. -/
theorem splitHostPort_join {host port : List Char} (hhost : ∀ c ∈ host, hostChar c = true)
    (hport : ∀ c ∈ port, c.isDigit = true) :
    splitHostPort (String.ofList (host ++ ':' :: port))
      = .ok (String.ofList host, String.ofList port) := by
  have hfree : ∀ c, hostChar c = false → c.isDigit = false → c ∉ host ∧ c ∉ port := by
    refine fun c hc hd => ⟨fun hmem => ?_, fun hmem => ?_⟩
    · exact absurd (hhost c hmem) (Bool.eq_false_iff.mp hc)
    · exact absurd (hport c hmem) (Bool.eq_false_iff.mp hd)
  obtain ⟨hcolon, hcolon'⟩ := hfree ':' (by decide) (by decide)
  obtain ⟨hopen, hopen'⟩ := hfree '[' (by decide) (by decide)
  obtain ⟨hclose, hclose'⟩ := hfree ']' (by decide) (by decide)
  -- the port's colon is the only one, hence the last
  have hindex : (host ++ ':' :: port).length - 1 - (host ++ ':' :: port).reverse.idxOf ':'
      = host.length := by
    have hrev : (host ++ ':' :: port).reverse = port.reverse ++ ':' :: host.reverse := by
      rw [List.reverse_append, List.reverse_cons, List.append_assoc]
      rfl
    rw [hrev, List.idxOf_append, if_neg (by rw [List.mem_reverse]; exact hcolon'),
      List.idxOf_cons_self, List.length_append, List.length_cons, List.length_reverse]
    omega
  have hbracket : ∀ c, c ≠ ':' → c ∉ host → c ∉ port → c ∉ host ++ ':' :: port := by
    intro c hc hfront hback hmem
    rcases List.mem_append.mp hmem with hmem | hmem
    · exact hfront hmem
    · exact (List.mem_cons.mp hmem).elim hc hback
  have hhead : ¬ (host ++ ':' :: port).head? = some '[' := by
    intro hhead
    exact hbracket '[' (by decide) hopen hopen' (List.mem_of_mem_head? hhead)
  rw [splitHostPort]
  dsimp only
  rw [String.toList_ofList, hindex, if_neg hhead, List.take_left,
    ensure, if_pos (List.mem_append_right _ List.mem_cons_self), ensure, if_pos hcolon,
    ensure, if_pos (hbracket '[' (by decide) hopen hopen'),
    ensure, if_pos (hbracket ']' (by decide) hclose hclose')]
  have hdrop : (host ++ ':' :: port).drop (host.length + 1) = port := by
    rw [← List.drop_drop, List.drop_left]
    rfl
  rw [hdrop]
  rfl

/-! ## Both normalizers on an accepted domain -/

/-- A host header for the domain: any letter case, a dot, a port and white space around. -/
def HostVariant (lower : Char → Char) (domain host : String) : Prop :=
  ∃ front variant dot port back : List Char, host.toList = front ++ (variant ++ dot ++ port) ++ back
    ∧ (∀ c ∈ front, isSpace c = true) ∧ (∀ c ∈ back, isSpace c = true)
    ∧ variant.map lower = domain.toList ∧ (dot = [] ∨ dot = ['.'])
    ∧ (port = [] ∨ ∃ digits, port = ':' :: digits ∧ ∀ c ∈ digits, c.isDigit = true)

/-- White space around a text without any at its ends. -/
theorem trimSpace_surrounded {s : String} {front mid back : List Char} {c d : Char}
    {rest init : List Char} (hs : s.toList = front ++ mid ++ back)
    (hfront : ∀ c ∈ front, isSpace c = true) (hback : ∀ c ∈ back, isSpace c = true)
    (hfirst : mid = c :: rest) (hc : isSpace c = false) (hlast : mid = init ++ [d])
    (hd : isSpace d = false) : trimSpace s = String.ofList mid := by
  have hmid : trim isSpace isSpace (front ++ (mid ++ back)) = mid := by
    refine trim_surrounded hfront hback ?_ (fun e he => ?_) fun e he => ?_
    · rw [hfirst]
      exact List.cons_ne_nil _ _
    · rw [hfirst] at he
      cases he
      exact hc
    · rw [hlast, List.getLast?_concat] at he
      cases he
      exact hd
  rw [trimSpace, hs, List.append_assoc]
  exact congrArg String.ofList hmid

/-- A domain that is accepted was trimmed, lowered and cut to a hostname. -/
theorem normalizeSiteDomain_ok {value n : String} (h : normalizeSiteDomain value = .ok n) :
    trimSuffix (String.ofList ((trimSpace value).toList.map toLower)) "." = n
      ∧ Hostname n.toList := by
  rw [normalizeSiteDomain] at h
  obtain ⟨_, -, h⟩ := bind_eq_ok.mp h
  obtain ⟨_, -, h⟩ := bind_eq_ok.mp h
  obtain ⟨_, -, h⟩ := bind_eq_ok.mp h
  obtain ⟨_, hvalid, h⟩ := bind_eq_ok.mp h
  have hvalue := pure_eq_ok.mp h
  rw [hvalue] at hvalid
  exact ⟨hvalue, hostname_of_valid (ensure_eq_ok.mp hvalid)⟩

/-- A hostname is its own normal form. -/
theorem Hostname.normalized {n : String} (h : Hostname n.toList) :
    Validation.trimSuffix (String.ofList ((trimSpace n).toList.map toLower)) "." = n := by
  obtain ⟨c, rest, hfirst, hc⟩ := h.first
  obtain ⟨front, d, hlast, hd⟩ := h.last
  have hspace : ∀ {e}, lowerAlnum e = true → isSpace e = false := by
    intro e he
    obtain ⟨hrange, hascii, -⟩ := hostChar_toNat (hostChar_of_lowerAlnum he)
    refine @space_of_lower toLower (fun _ _ => rfl) e ?_
    rw [toLower_ascii hrange hascii]
    exact he
  have hmap : n.toList.map toLower = n.toList := by
    refine map_lower (fun _ _ => rfl) fun e he => ?_
    obtain ⟨hrange, hascii, -⟩ := hostChar_toNat (h.chars e he)
    exact ⟨hrange, hascii⟩
  rw [trimSpace_of_ends hfirst (hspace hc) hlast (hspace hd), hmap, String.ofList_toList,
    h.trimSuffix]

/-- **Domains** are normalized once. -/
theorem normalizeSiteDomain_idem {value n : String} (h : normalizeSiteDomain value = .ok n) :
    normalizeSiteDomain n = .ok n := by
  obtain ⟨hvalue, hname⟩ := normalizeSiteDomain_ok h
  rw [normalizeSiteDomain, hvalue] at h
  rw [normalizeSiteDomain, hname.normalized]
  exact h

/-- The characters of a dot and a port. -/
theorem tail_chars {dot port : List Char} (hdot : dot = [] ∨ dot = ['.'])
    (hport : port = [] ∨ ∃ digits, port = ':' :: digits ∧ ∀ c ∈ digits, c.isDigit = true) :
    ∀ c ∈ dot ++ port, 46 ≤ c.toNat ∧ c.toNat ≤ 58 := by
  intro c hc
  rcases List.mem_append.mp hc with hc | hc
  · rcases hdot with rfl | rfl
    · exact nomatch hc
    · rw [List.mem_singleton.mp hc]
      decide
  · rcases hport with rfl | ⟨digits, rfl, hdigits⟩
    · exact nomatch hc
    · rcases List.mem_cons.mp hc with rfl | hc
      · decide
      · have hdigit := hdigits c hc
        rw [Char.isDigit, Bool.and_eq_true, decide_eq_true_iff, decide_eq_true_iff] at hdigit
        have hlow : 48 ≤ c.toNat := hdigit.1
        have hhigh : c.toNat ≤ 57 := hdigit.2
        omega

section Lower

variable {lower : Char → Char} (hlower : LowersAscii lower) {n : String} (hname : Hostname n.toList)

include hlower hname

/-- The case mapping of a variant, once the white space is gone. -/
theorem lower_trimmed {host : String} {front variant tail back : List Char}
    (hhost : host.toList = front ++ (variant ++ tail) ++ back)
    (hfront : ∀ c ∈ front, isSpace c = true) (hback : ∀ c ∈ back, isSpace c = true)
    (hvariant : variant.map lower = n.toList) (htail : ∀ c ∈ tail, 46 ≤ c.toNat ∧ c.toNat ≤ 58) :
    (trimSpace host).toList.map lower = n.toList ++ tail := by
  have hvisible : ∀ c, lowerAlnum (lower c) = true → isSpace c = false :=
    fun c hc => space_of_lower hlower hc
  obtain ⟨c, rest, hfirst, hc⟩ := hname.first
  obtain ⟨v, variant', rfl, rfl, -⟩ := List.map_eq_cons_iff.mp (hvariant.trans hfirst)
  have hlast : ∃ init d, v :: variant' ++ tail = init ++ [d] ∧ isSpace d = false := by
    rcases List.eq_nil_or_concat tail with rfl | ⟨init, d, rfl⟩
    · obtain ⟨front', e, hlast, he⟩ := hname.last
      obtain ⟨init, last, hinit, -, hmap⟩ := List.map_eq_append_iff.mp (hvariant.trans hlast)
      obtain ⟨d, rfl, rfl⟩ := List.map_eq_singleton_iff.mp hmap
      exact ⟨init, d, by rw [List.append_nil, hinit], hvisible d he⟩
    · refine ⟨v :: variant' ++ init, d, by rw [List.concat_eq_append, List.append_assoc], ?_⟩
      have hd := htail d
        (by rw [List.concat_eq_append]; exact List.mem_append_right _ (List.mem_singleton_self d))
      rw [Bool.eq_false_iff]
      intro hspace
      have hrange := space_toNat hspace
      omega
  obtain ⟨init, d, hlast, hd⟩ := hlast
  rw [trimSpace_surrounded hhost hfront hback rfl (hvisible v hc) hlast hd, String.toList_ofList,
    List.map_append, hvariant]
  refine congrArg (n.toList ++ ·) (map_lower hlower fun e he => ?_)
  have hrange := htail e he
  omega

/-- **Host headers** of an accepted domain, in any letter case, are normalized to it. -/
theorem normalizeRequestHost_variant {host : String} (h : HostVariant lower n host) :
    normalizeRequestHost lower host = n := by
  obtain ⟨front, variant, dot, port, back, hhost, hfront, hback, hvariant, hdot, hport⟩ := h
  rw [List.append_assoc variant] at hhost
  have hmap := lower_trimmed hlower hname hhost hfront hback hvariant (tail_chars hdot hport)
  have hdotted : trimSuffix (String.ofList (n.toList ++ dot)) "." = n := by
    rcases hdot with rfl | rfl
    · rw [List.append_nil, String.ofList_toList, hname.trimSuffix]
    · have happ : String.ofList (n.toList ++ ['.']) = n ++ "." := by
        rw [String.ofList_append, String.ofList_toList]
      rw [happ, trimSuffix_append]
  rw [normalizeRequestHost, hmap]
  -- without a port the dot goes first, with one the port does
  rcases hport with rfl | ⟨digits, rfl, hdigits⟩
  · rw [List.append_nil, hdotted, if_neg hname.ne_empty, splitHostPort_free hname.colon_free]
  · -- a port ends in no dot
    have hsplit : splitHostPort (String.ofList (n.toList ++ (dot ++ ':' :: digits)))
        = .ok (String.ofList (n.toList ++ dot), String.ofList digits) := by
      rw [← List.append_assoc]
      refine splitHostPort_join (fun c hc => ?_) hdigits
      rcases List.mem_append.mp hc with hc | hc
      · exact hname.chars c hc
      · rcases hdot with rfl | rfl
        · exact nomatch hc
        · rw [List.mem_singleton.mp hc]
          rfl
    have hkeep : trimSuffix (String.ofList (n.toList ++ (dot ++ ':' :: digits))) "."
        = String.ofList (n.toList ++ (dot ++ ':' :: digits)) := by
      rcases List.eq_nil_or_concat digits with rfl | ⟨init, d, rfl⟩
      · have hend : (String.ofList (n.toList ++ (dot ++ [':']))).toList
            = (n.toList ++ dot) ++ [':'] := by
          rw [String.toList_ofList, List.append_assoc]
        exact trimSuffix_dot hend (by decide)
      · have hend : (String.ofList (n.toList ++ (dot ++ ':' :: init.concat d))).toList
            = (n.toList ++ (dot ++ ':' :: init)) ++ [d] := by
          rw [String.toList_ofList, List.concat_eq_append, List.append_assoc, List.append_assoc]
          rfl
        refine trimSuffix_dot hend ?_
        rintro rfl
        exact absurd (hdigits '.' (by simp)) (by decide)
    have hne : String.ofList (n.toList ++ (dot ++ ':' :: digits)) ≠ "" := by
      intro hempty
      have hnil := congrArg String.toList hempty
      rw [String.toList_ofList] at hnil
      exact List.append_ne_nil_of_right_ne_nil _
        (List.append_ne_nil_of_right_ne_nil _ (List.cons_ne_nil _ _)) hnil
    rw [hkeep, if_neg hne, hsplit]
    exact hdotted

end Lower

/-! ## Stored domains -/

section Stored

variable {c : Tables k} {domain : String}

/-- **The unique key** leaves one stored domain to a text. -/
theorem domain_unique {d d' : SiteDomain} (hd : d ∈ c.siteDomains.rows)
    (hd' : d' ∈ c.siteDomains.rows) (h : k.eq d.domain domain = true)
    (h' : k.eq d'.domain domain = true) : d = d' := by
  refine c.siteDomains.eq_of_clash hd hd' ?_
  rw [Collation.eq_comm] at h'
  rw [SiteDomain.clash, Collation.eq_trans h h', Bool.or_true]

/-- At most one row has the domain, by the unique key. -/
theorem select_domain {d : SiteDomain} (hd : d ∈ c.siteDomains.rows)
    (h : k.eq d.domain domain = true) :
    (c.siteDomains.select fun d => k.eq d.domain domain) = [d] := by
  refine c.siteDomains.select_eq_singleton hd h fun a ha => ?_
  rw [Collation.eq_comm] at h
  rw [SiteDomain.clash, Collation.eq_trans ha h, Bool.or_true]

/-- At most one row has the id, by the primary key. -/
theorem select_site {d : SiteDomain} {site : Site} (hsite : site ∈ c.sites.rows)
    (hid : d.siteID = site.id) : (c.sites.select fun site => d.siteID == site.id) = [site] := by
  refine c.sites.select_eq_singleton hsite (beq_iff_eq.mpr hid) fun a ha => ?_
  rw [Site.clash, beq_iff_eq]
  exact (beq_iff_eq.mp ha).symm.trans hid

/-- At most one site is joined to a text. -/
theorem sitesOfDomain_length : (sitesOfDomain c domain).length ≤ 1 := by
  rw [sitesOfDomain]
  cases hsel : c.siteDomains.select fun d => k.eq d.domain domain with
  | nil => exact Nat.zero_le _
  | cons d rest =>
      have hd : d ∈ c.siteDomains.select fun d => k.eq d.domain domain :=
        hsel ▸ List.mem_cons_self
      obtain ⟨hrow, heq⟩ := Table.mem_select.mp hd
      rw [← hsel, select_domain hrow heq, List.flatMap_singleton]
      cases hsites : c.sites.select fun site => d.siteID == site.id with
      | nil => exact Nat.zero_le _
      | cons site rest =>
          have hsite : site ∈ c.sites.select fun site => d.siteID == site.id :=
            hsites ▸ List.mem_cons_self
          obtain ⟨hrow, hid⟩ := Table.mem_select.mp hsite
          rw [← hsites, select_site hrow (beq_iff_eq.mp hid)]
          exact Nat.le_refl 1

/-- A stored domain leads to its site. -/
theorem siteByDomain_of_mem {d : SiteDomain} {site : Site} (hd : d ∈ c.siteDomains.rows)
    (hsite : site ∈ c.sites.rows) (hid : d.siteID = site.id) :
    siteByDomain c d.domain = some site := by
  rw [siteByDomain, sitesOfDomain, select_domain hd (Collation.eq_refl _), List.flatMap_singleton,
    select_site hsite hid, List.mergeSort_singleton]
  rfl

end Stored

/-- **Hosts and domains agree.** -/
theorem site_hosts_agree {lower : Char → Char} (hlower : LowersAscii lower) :
    (∀ value n, normalizeSiteDomain value = .ok n → normalizeSiteDomain n = .ok n
      ∧ ∀ host, HostVariant lower n host → normalizeRequestHost lower host = n)
    ∧ ∀ (k : Collation) (c : Tables k) (host : String),
      (∀ d ∈ c.siteDomains.rows, ∀ d' ∈ c.siteDomains.rows,
        k.eq d.domain (normalizeRequestHost lower host) = true →
        k.eq d'.domain (normalizeRequestHost lower host) = true → d = d')
      ∧ (sitesOfDomain c (normalizeRequestHost lower host)).length ≤ 1
      ∧ ∀ value, ∀ d ∈ c.siteDomains.rows, ∀ site ∈ c.sites.rows,
        normalizeSiteDomain value = .ok d.domain → d.siteID = site.id →
        HostVariant lower d.domain host → findByDomain lower c host = some site := by
  refine ⟨fun value n h => ⟨normalizeSiteDomain_idem h, fun host hvariant => ?_⟩,
    fun k c host => ⟨fun d hd d' hd' => domain_unique hd hd', sitesOfDomain_length, ?_⟩⟩
  · exact normalizeRequestHost_variant hlower (normalizeSiteDomain_ok h).2 hvariant
  · intro value d hd site hsite hvalue hid hvariant
    have hname := (normalizeSiteDomain_ok hvalue).2
    rw [findByDomain, normalizeRequestHost_variant hlower hname hvariant, if_neg hname.ne_empty]
    exact siteByDomain_of_mem hd hsite hid

/-- The header of a request for the shop, in capitals, with a dot, a port and a space. -/
def shopHost : String := " SHOP.example.:8080"

/-- One of two sites in one bucket. -/
def shopSite : Site :=
  { id := 7, bucketName := "photos", rootPrefix := "shop/", enabled := true
    indexDocument := "index.html", errorDocument := "", spaFallback := false }

/-- The other site of the bucket. -/
def blogSite : Site := { shopSite with id := 8, rootPrefix := "blog/" }

/-- Two sites, one of them with two domains. -/
def twoSites : Tables Collation.binary where
  sites := ⟨[shopSite, blogSite], by decide⟩
  siteDomains := ⟨[{ id := 1, siteID := 8, domain := "blog.example" },
    { id := 2, siteID := 7, domain := "shop.example" },
    { id := 3, siteID := 7, domain := "shop.test" }], by decide⟩

/-- The header leads to the site whose domain was typed in another spelling. -/
theorem site_hosts_agree_shop : normalizeSiteDomain "Shop.Example." = .ok "shop.example"
    ∧ normalizeSiteDomain "shop.example" = .ok "shop.example"
    ∧ normalizeRequestHost toLower shopHost = "shop.example"
    ∧ findByDomain toLower twoSites shopHost = some shopSite := by
  have hdomain : normalizeSiteDomain "Shop.Example." = .ok "shop.example" := by decide
  obtain ⟨hnames, hsites⟩ := @site_hosts_agree toLower fun _ _ => rfl
  obtain ⟨hidem, hhost⟩ := hnames _ _ hdomain
  have hspace : ∀ c ∈ [' '], isSpace c = true := List.all_eq_true.mp (by decide)
  have hdigits : ∀ c ∈ "8080".toList, c.isDigit = true := List.all_eq_true.mp (by decide)
  have hvariant : HostVariant toLower "shop.example" shopHost :=
    ⟨[' '], "SHOP.example".toList, ['.'], ":8080".toList, [], by decide, hspace, nofun, by decide,
      Or.inr rfl, Or.inr ⟨"8080".toList, by decide, hdigits⟩⟩
  have hfind := (hsites _ twoSites shopHost).2.2 "Shop.Example." _
    (List.mem_cons_of_mem _ List.mem_cons_self) shopSite List.mem_cons_self
  exact ⟨hdomain, hidem, hhost _ hvariant, hfind hdomain rfl hvariant⟩

end SiteHosts
