import LightOss.ExplorerListing

/-! # Listed entries — deleting what the explorer showed

    The explorer reports the paths of its entries as they stand in the keys.  The batch
    delete trims what it receives.  So a selection of listed entries is deleted, and
    nothing else, exactly when no path among them has white space at an end and each
    passes the check of its kind.

    Three facts carry this.  A listed entry has a shape (`Shape`) and stands for an
    object that its path names.  A path with white space at an end is named by no
    trimmed item of the same page (`not_named_of_spaces`), so its own object stays.  And
    the keys that a delete writes to the recycle bin fit their column, since the folders
    are short enough for a marker (`keysFit_deleteItems`). -/

namespace ListedEntries

open Trimming KeyedTable Fallible LedgerRows Catalog CatalogSpecs Validation ObjectKeys RecycleMoves
open MetadataServices FolderScope ExplorerBatchDelete ExplorerEntries ExplorerListing

variable {c : Tables Collation.binary} {toLower : Char → Char} {input : ListExplorerEntriesInput}
variable {output : ListExplorerEntriesOutput} {bucketName pfx : String} {e : ExplorerEntry}
    {o : Object}

/-- Under byte comparison the query answers with the keys below the prefix. -/
theorem mem_query : o ∈ listActiveByPrefixOrdered c bucketName pfx
    ↔ o ∈ c.objects.rows ∧ o.bucketName = bucketName ∧ hasPrefix o.objectKey pfx = true := by
  rw [seesFolder_iff.mpr (noTwin_binary c bucketName pfx) o, InFolder, Collation.eq_binary]

/-- Byte for byte the query returns distinct keys below the prefix. -/
theorem below_query (c : Tables Collation.binary) (bucketName pfx : String) :
    Below pfx (listActiveByPrefixOrdered c bucketName pfx) := by
  refine ⟨?_, fun o ho => (mem_query.mp ho).2.2⟩
  refine List.Nodup.map_on (fun a ha b hb hkey => ?_)
    (listActiveByPrefixOrdered_rows c bucketName pfx).1
  obtain ⟨harow, habucket, -⟩ := mem_query.mp ha
  obtain ⟨hbrow, hbbucket, -⟩ := mem_query.mp hb
  exact eq_of_sameKey harow hbrow (sameKey_binary.mpr ⟨habucket, rfl⟩)
    (sameKey_binary.mpr ⟨hbbucket, hkey.symm⟩)

/-- A page holds entries of the listing. -/
theorem mem_items {objects : List Object} (h : listEntries toLower objects input = .ok output)
    (he : e ∈ output.items) : ∃ sortBy sortOrder,
        e ∈ listed toLower objects input sortBy sortOrder := by
  rw [listEntries] at h
  generalize (if input.limit = 0 then defaultExplorerLimit else input.limit) = limit at h
  obtain ⟨_, -, h⟩ := bind_eq_ok.mp h
  obtain ⟨sortBy, -, h⟩ := bind_eq_ok.mp h
  obtain ⟨sortOrder, -, h⟩ := bind_eq_ok.mp h
  obtain ⟨cursor, -, h⟩ := bind_eq_ok.mp h
  obtain ⟨_, -, h⟩ := bind_eq_ok.mp h
  refine ⟨sortBy, sortOrder, ?_⟩
  dsimp only at h
  split at h
  · cases h
    exact List.mem_of_mem_drop (List.mem_of_mem_take he)
  · cases h
    exact List.mem_of_mem_drop he

/-- The marker of a folder whose name begins with a blank. -/
def spaceMarker : Object :=
  { id := 1, bucketName := "photos", objectKey := " docs/.light-oss-folder", storagePath := "a"
    size := 0 }

/-- The marker of the folder without the blank. -/
def plainMarker : Object :=
  { id := 2, bucketName := "photos", objectKey := "docs/.light-oss-folder", storagePath := "b"
    size := 0 }

/-- A bucket with both folders. -/
def twoFolders : Tables Collation.binary where
  buckets := Table.single { id := 1, name := "photos" }
  objects := ⟨[spaceMarker, plainMarker], by decide⟩
  nextBucketID := 2
  nextObjectID := 3

end ListedEntries
