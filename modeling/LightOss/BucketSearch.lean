import LightOss.FolderScope

/-! # Bucket search — what the escaped patterns find

    A listing asks the database for the rows whose key begins with a prefix, a search
    for the buckets whose name has a text in it.  The text comes from the request, so
    it is escaped before the wildcards are put around it.

    Both patterns are the escaped text between wildcards, and matching an escaped text
    is comparing character by character, so `like_patterns` is two uses of the rules of
    `LikePattern`. -/

namespace BucketSearch

open KeyedTable LedgerRows Catalog Validation

variable {k : Collation}

/-! ## `strings.NewReplacer` -/

/-- `strings.NewReplacer` with one-character old strings: the first pair that has the
    character decides, and what was written is not read again. -/
def newReplacer (pairs : List (Char × String)) (value : String) : String :=
  String.ofList (value.toList.flatMap fun c =>
    match pairs.lookup c with
    | some new => new.toList
    | none => [c])

/-- The pairs of `escapeLikeValue`. -/
def likeReplacements : List (Char × String) := [('!', "!!"), ('%', "!%"), ('_', "!_")]

/-- The replacer puts the escape character before itself and the wildcards. -/
theorem newReplacer_like (value : String) :
    newReplacer likeReplacements value = escapeLikeValue value := by
  rw [newReplacer, escapeLikeValue, LikePattern.escapeValue]
  congr 1
  refine List.flatMap_congr fun c _ => ?_
  by_cases hescape : c = '!'
  · subst hescape
    rfl
  by_cases hpercent : c = '%'
  · subst hpercent
    rfl
  by_cases hone : c = '_'
  · subst hone
    rfl
  have hspecial : LikePattern.special '!' c = false := by
    simp [LikePattern.special, hescape, hpercent, hone]
  have hlookup : likeReplacements.lookup c = none := by
    rw [likeReplacements, List.lookup_eq_none_iff]
    simp [hescape, hpercent, hone]
  rw [hlookup, hspecial]
  rfl

/-! ## `BucketRepository.List` -/

def likeContainsPattern (value : String) : String := "%" ++ escapeLikeValue value ++ "%"

/-- `applyBucketSearchFilter` on a row: `LOWER(name) LIKE ? ESCAPE '!'`.  `toLower` is
    `strings.ToLower`, `lower` the function of the database. -/
def applyBucketSearchFilter (k : Collation) (toLower lower : String → String) (search : String)
    (b : Bucket) : Bool :=
  let normalizedSearch := toLower (trimSpace search)
  normalizedSearch == ""
    || LikePattern.like k.sameChar '!' (likeContainsPattern normalizedSearch).toList
      (lower b.name).toList

/-- `BucketRepository.List`, `ORDER BY created_at DESC`; buckets of one time stand in the
    order of the table. -/
def listBuckets (c : Tables k) (toLower lower : String → String) (search : String) : List Bucket :=
  (c.buckets.select (applyBucketSearchFilter k toLower lower search)).mergeSort
    fun a b => decide (b.createdAt ≤ a.createdAt)

/-! ## What the patterns mean -/

/-- `p` is a prefix of `key` up to the character equality. -/
def PrefixUpTo (same : Char → Char → Bool) (p key : String) : Prop :=
  ∃ front back, key = front ++ back
    ∧ List.Forall₂ (fun c d => same c d = true) p.toList front.toList

/-- `p` occurs in `key` up to the character equality. -/
def OccursUpTo (same : Char → Char → Bool) (p key : String) : Prop :=
  ∃ front found back, key = front ++ (found ++ back)
    ∧ List.Forall₂ (fun c d => same c d = true) p.toList found.toList

/-- The characters of the prefix pattern. -/
theorem likePrefixPattern_chars (p : String) :
    (likePrefixPattern p).toList = LikePattern.escapeValue '!' p.toList ++ ['%'] := by
  rw [likePrefixPattern, escapeLikeValue, String.toList_append, String.toList_ofList]
  rfl

/-- The characters of the search pattern. -/
theorem likeContainsPattern_chars (p : String) :
    (likeContainsPattern p).toList = '%' :: (LikePattern.escapeValue '!' p.toList ++ ['%']) := by
  simp [likeContainsPattern, escapeLikeValue]

/-- **The prefix pattern** finds the keys that begin with the text. -/
theorem like_prefixPattern (same : Char → Char → Bool) (p key : String) :
    LikePattern.like same '!' (likePrefixPattern p).toList key.toList = true
      ↔ PrefixUpTo same p key := by
  rw [likePrefixPattern_chars, LikePattern.like_prefix_iff (by decide), PrefixUpTo]
  constructor
  · rintro ⟨front, back, hkey, hall⟩
    refine ⟨String.ofList front, String.ofList back, ?_, ?_⟩
    · rw [← String.ofList_append, ← hkey, String.ofList_toList]
    · rwa [String.toList_ofList]
  · rintro ⟨front, back, rfl, hall⟩
    exact ⟨front.toList, back.toList, String.toList_append, hall⟩

/-- **The contains pattern** finds the keys that have the text in them. -/
theorem like_containsPattern (same : Char → Char → Bool) (p key : String) :
    LikePattern.like same '!' (likeContainsPattern p).toList key.toList = true
      ↔ OccursUpTo same p key := by
  rw [likeContainsPattern_chars, LikePattern.like_contains_iff (by decide), OccursUpTo]
  constructor
  · rintro ⟨front, found, back, hkey, hall⟩
    refine ⟨String.ofList front, String.ofList found, String.ofList back, ?_, ?_⟩
    · rw [← String.ofList_append, ← String.ofList_append, ← hkey, String.ofList_toList]
    · rwa [String.toList_ofList]
  · rintro ⟨front, found, back, rfl, hall⟩
    exact ⟨front.toList, found.toList, back.toList, by simp, hall⟩

/-- **LIKE patterns mean prefix and substring**, whatever the text and whatever
    characters the database takes for equal. -/
theorem like_patterns (same : Char → Char → Bool) (p key : String) :
    (LikePattern.like same '!' (likePrefixPattern p).toList key.toList = true
        ↔ PrefixUpTo same p key)
    ∧ (LikePattern.like same '!' (likeContainsPattern p).toList key.toList = true
        ↔ OccursUpTo same p key)
    ∧ newReplacer likeReplacements p = escapeLikeValue p :=
  ⟨like_prefixPattern same p key, like_containsPattern same p key, newReplacer_like p⟩

/-! ## What a search lists -/

variable {c : Tables k} {toLower lower : String → String} {search : String}

/-- A search lists the buckets whose lower-case name has the trimmed text in it. -/
theorem mem_listBuckets {b : Bucket} : b ∈ listBuckets c toLower lower search ↔
    b ∈ c.buckets.rows ∧ (toLower (trimSpace search) = ""
      ∨ OccursUpTo k.sameChar (toLower (trimSpace search)) (lower b.name)) := by
  rw [listBuckets, List.mem_mergeSort, Table.mem_select, applyBucketSearchFilter, Bool.or_eq_true,
    beq_iff_eq, like_containsPattern]

/-- The newest bucket comes first. -/
theorem listBuckets_newest_first :
    (listBuckets c toLower lower search).Pairwise fun a b => b.createdAt ≤ a.createdAt := by
  have htrans : ∀ a b d : Bucket, decide (b.createdAt ≤ a.createdAt) = true →
      decide (d.createdAt ≤ b.createdAt) = true → decide (d.createdAt ≤ a.createdAt) = true := by
    intro a b d hab hbd
    exact decide_eq_true (le_trans (of_decide_eq_true hbd) (of_decide_eq_true hab))
  have htotal : ∀ a b : Bucket,
      (decide (b.createdAt ≤ a.createdAt) || decide (a.createdAt ≤ b.createdAt)) = true := by
    intro a b
    rw [Bool.or_eq_true, decide_eq_true_iff, decide_eq_true_iff]
    exact le_total _ _
  exact (List.pairwise_mergeSort htrans htotal _).imp of_decide_eq_true

end BucketSearch
