import Tiko.Cache.Complete
import Tiko.Cache.CreateRelfork
import Tiko.Cache.Exhausted
import Tiko.Cache.PatchChunk
import Tiko.Compaction.Base
import Tiko.Compaction.Batches
import Tiko.Compaction.Exclusion
import Tiko.Compaction.LocalFile
import Tiko.Compaction.Raced
import Tiko.Draft.Lookups
import Tiko.Draft.Restart
import Tiko.Locator.Keys
import Tiko.Locator.Order
import Tiko.Locator.WalKeys
import Tiko.Model.ActiveWindow
import Tiko.Model.ChunkRange
import Tiko.Model.SegmentRange
import Tiko.Ops.RelFiles
import Tiko.Pitr.LsnText
import Tiko.Pitr.RecoveryWindow
import Tiko.Pitr.Rollback
import Tiko.Shmem.IoSlot
import Tiko.Shmem.RwLock
import Tiko.Shmem.SubmitQueue
import Tiko.Smgr.Aio
import Tiko.Store.Acked
import Tiko.Store.Backup
import Tiko.Store.Branches
import Tiko.Store.FailedHydration
import Tiko.Store.NotFound
import Tiko.Store.Sealed
import Tiko.Store.SimPut
import Tiko.Tikm.Codec
import Tiko.Wal.ContiguousRun
import Tiko.Wal.Framing
import Tiko.Wal.Window
