import Rose.DirectoryRemoval
import Rose.FailedTruncations
import Rose.NamespaceListing
import Rose.PlogAddresses
import Rose.PlogScrub
import Rose.PlogShards
import Rose.PublishedPlacements
import Rose.RebalancePasses
import Rose.RecordCipher
import Rose.RecordOverlaps
import Rose.RecoveredBytes
import Rose.SnapshotExpiry
import Rose.UnpublishedWrites
import Rose.VlogRetries
import Rose.VlogVerification
