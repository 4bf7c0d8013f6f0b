import LSMEngine.Wal.Durable
import LSMEngine.Wal.Crash
import LSMEngine.Engine.Isolation
import LSMEngine.Tables.Removal
import LSMEngine.Engine.Reads
import LSMEngine.Engine.Retire
import LSMEngine.Format.Uncached
import LSMEngine.Format.Versions
import LSMEngine.Format.Limits
import LSMEngine.Engine.FailsClosed
import LSMEngine.Wal.Trace
import LSMEngine.Manifest.LogStore
import LSMEngine.Tables.Quiescence
import LSMEngine.Tables.Runner
import LSMEngine.Format.Damaged
import LSMEngine.Format.Exhausted
import LSMEngine.Cdc.Retention
import LSMEngine.CommitLog.RaftStorage
import LSMEngine.Control.Atomic
import LSMEngine.Control.Conflicts
import LSMEngine.Control.Routers
import LSMEngine.Format.Accounting
import LSMEngine.Server.Requests
import LSMEngine.Wal.Batches
import LSMEngine.Wal.Repair
import LSMEngine.Wal.Uniform
import LSMEngine.Tables.Compaction
import LSMEngine.Control.Sharing
import LSMEngine.Memory.Arena
import LSMEngine.Format.Blocks
import LSMEngine.Memtable.SkipList
