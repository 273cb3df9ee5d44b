import LightOss.StepSystem
import LightOss.KeyedTable
import LightOss.Fallible
import LightOss.LikePattern
import LightOss.LedgerRows
import LightOss.Validation
import LightOss.BlobRepository
import LightOss.LedgerSpecs
import LightOss.LedgerMoves
import LightOss.LedgerOps
import LightOss.LedgerEvolution
import LightOss.LedgerInvariant
import LightOss.LedgerPreserved
import LightOss.QuotaSafety
import LightOss.Catalog
import LightOss.MetadataServices
import LightOss.CatalogSpecs
import LightOss.RecycleMoves
import LightOss.MetadataReferences
import LightOss.StorageAudit
import LightOss.PublishLifecycle
import LightOss.StorageSystem
import LightOss.LedgerExactness
import LightOss.PublishOutcome
import LightOss.StorageReconciliation
import LightOss.CleanupLease
import LightOss.AbortLifecycle
import LightOss.StagingExpiry
import LightOss.StreamingStage
import LightOss.FolderScope
import LightOss.BatchPublication
import LightOss.ObjectServices
import LightOss.ExplorerBatchDelete
import LightOss.RequestRows
import LightOss.ObjectKeys
import LightOss.Addressable
import LightOss.TokenBucket
import LightOss.RateLimitStore
import LightOss.RateLimitCapacity
import LightOss.RateLimitBucket
import LightOss.SiteServing
import LightOss.SitePublishing
import LightOss.ByteText
import LightOss.Decimal
import LightOss.Keyset
import LightOss.ObjectListing
import LightOss.SignedLinks
import LightOss.BatchLedger
import LightOss.BatchRelease
import LightOss.StorageIdentity
import LightOss.RecencyList
import LightOss.RateLimitTable
import LightOss.RateLimitEviction
import LightOss.PathClean
import LightOss.FolderArchive
import LightOss.BucketSearch
import LightOss.ManagedPaths
import LightOss.FolderTree
import LightOss.ExplorerPrefix
import LightOss.SiteHosts
import LightOss.OriginalFilename
import LightOss.ListedEntries
import LightOss.ManagedFiles
import LightOss.DeletionSafety
import LightOss.SparedRows
import LightOss.UploadRows
import LightOss.PhysicalBytes
import LightOss.ConcurrentReconciliation
import LightOss.BlockList
import LightOss.RecycleListing
import LightOss.RecycleGroups
import LightOss.RecyclePages
import LightOss.RecycleRuns
import LightOss.RecycleRoundTrip
import LightOss.RecycleRaces
import LightOss.RecycleBatches
