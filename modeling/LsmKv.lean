import LsmKv.Lists
import LsmKv.Loops
import LsmKv.Recency
import LsmKv.ScopedLocks
import LsmKv.OrderedMap
import LsmKv.Layers
import LsmKv.Bytes
import LsmKv.Crc
import LsmKv.CrcBursts
import LsmKv.Decimal
import LsmKv.FileNames
import LsmKv.Calendar
import LsmKv.Timestamps
import LsmKv.Framing
import LsmKv.DurableFile
import LsmKv.WalFormat
import LsmKv.Errors
import LsmKv.Wal
import LsmKv.WalLog
import LsmKv.LogContents
import LsmKv.WalInvariant
import LsmKv.WalScan
import LsmKv.WalGrammar
import LsmKv.WalRender
import LsmKv.WalRecovery
import LsmKv.WalAgreement
import LsmKv.WalDamage
import LsmKv.SegmentNumbers
import LsmKv.WalFaults
import LsmKv.WalCrash
import LsmKv.WalLife
import LsmKv.WalDurability
import LsmKv.Memtable
import LsmKv.Bloom
import LsmKv.SstFormat
import LsmKv.SstWriter
import LsmKv.SstReader
import LsmKv.SstLayout
import LsmKv.SstAgreement
import LsmKv.SstRoundTrip
import LsmKv.TableReader
import LsmKv.TableLookup
import LsmKv.TableGet
import LsmKv.SstArithmetic
import LsmKv.SstContained
import LsmKv.TableMetadata
import LsmKv.FooterChecks
import LsmKv.FdPool
import LsmKv.FdBudget
import LsmKv.BlockSearch
import LsmKv.IndexWalk
import LsmKv.VerifiedFile
import LsmKv.VerifiedReads
import LsmKv.SstDamage
import LsmKv.CachedReads
import LsmKv.CacheLru
import LsmKv.Manifest
import LsmKv.Compaction
import LsmKv.Picker
import LsmKv.Engine
import LsmKv.DirectoryNames
import LsmKv.Json
import LsmKv.ManifestFile
import LsmKv.ExplicitInputs
import LsmKv.LiveTables
import LsmKv.EngineTables
import LsmKv.EngineCompaction
import LsmKv.CompactionEffect
import LsmKv.SaveFailure
import LsmKv.AutoCompaction
import LsmKv.Replay
import LsmKv.EngineOpen
import LsmKv.EngineWrite
import LsmKv.Sessions
import LsmKv.RefusedWrites
import LsmKv.History
import LsmKv.MemtableRecovery
import LsmKv.MemtableBytes
import LsmKv.LogBlocks
import LsmKv.SeqnoRanges
import LsmKv.FlushPublishes
import LsmKv.ManifestReload
import LsmKv.Backpressure
import LsmKv.ShutdownWakeups
import LsmKv.LockDiscipline
import LsmKv.SeqnoContinuity
import LsmKv.GracePeriod
import LsmKv.GroupCommit
import LsmKv.TableAnswers
import LsmKv.ReopenedReads
import LsmKv.FullCompaction
import LsmKv.Threads
import LsmKv.Process
import LsmKv.IndexableKeys
import LsmKv.ProcessTables
import LsmKv.ProcessPublish
import LsmKv.CachingInvisible
import LsmKv.MemoryBound
import LsmKv.ThreadsInvariant
import LsmKv.ThreadsSteps
import LsmKv.SnapshotReads
import LsmKv.CrashRecovery
import LsmKv.TableImages
import LsmKv.ProcessThreads
import LsmKv.ByteLevelReads
import LsmKv.CrashedSessions
import LsmKv.ByteEngine
import LsmKv.ByteCrashes
import LsmKv.ByteSessions
