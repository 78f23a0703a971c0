import Crabstash.Foundations.LexOrder
import Crabstash.Common.Simd
import Crabstash.Common.Key
import Crabstash.Foundations.BinarySearch
import Crabstash.Foundations.SortedMap
import Crabstash.Storage.Bloom
import Crabstash.Storage.MemTable
import Crabstash.Storage.SSTable
import Crabstash.Common.Error
import Crabstash.Storage.Manifest
import Crabstash.Storage.Wal
import Crabstash.Foundations.Run
import Crabstash.Storage.Lsm
import Crabstash.Storage.Session
import Crabstash.Storage.LastWriterWins
import Crabstash.Storage.SnapshotStability
import Crabstash.Storage.Durability
import Crabstash.Foundations.PriorityQueue
import Crabstash.Storage.Iterator
import Crabstash.Storage.Merge
import Crabstash.Storage.Scan
import Crabstash.Storage.ScanAgreement
import Crabstash.Storage.Compaction
import Crabstash.Storage.CompactionOrder
import Crabstash.Lock.Ssi
import Crabstash.Foundations.SerializationGraph
import Crabstash.Lock.SsiSystem
import Crabstash.Lock.Serializability
import Crabstash.Lock.LockMode
import Crabstash.Txn.Timestamp
import Crabstash.Txn.Transaction
import Crabstash.Txn.Mvcc
import Crabstash.Txn.MvccSystem
import Crabstash.Txn.Observed
import Crabstash.Txn.FailedCommit
import Crabstash.Txn.SnapshotReads
import Crabstash.Txn.CrashCut
import Crabstash.Foundations.Versions
import Crabstash.Storage.Recency
import Crabstash.Storage.Superseding
import Crabstash.Foundations.Text
import Crabstash.Storage.CompactionCrash
import Crabstash.Storage.ManifestFile
import Crabstash.Storage.ManifestLog
import Crabstash.Storage.ManifestWriters
import Crabstash.Storage.TableNumbers
import Crabstash.Storage.Lockstep
import Crabstash.Storage.OpenFiles
import Crabstash.Storage.Readers
import Crabstash.Storage.Transparency
import Crabstash.Foundations.IntervalTree
import Crabstash.Lock.RangeLock
import Crabstash.Lock.LockEntry
import Crabstash.Lock.LockTable
import Crabstash.Lock.Exclusion
import Crabstash.Lock.LockCalls
import Crabstash.Txn.DirtyWrites
import Crabstash.Txn.LostUpdates
import Crabstash.Lock.Release
import Crabstash.Txn.Registrations
import Crabstash.Txn.Apart
import Crabstash.Txn.Handles
import Crabstash.Foundations.Groups
import Crabstash.Foundations.LittleEndian
import Crabstash.Storage.WalFormat
import Crabstash.Storage.WalManager
import Crabstash.Storage.WalHistory
import Crabstash.Lock.SsiCalls
import Crabstash.Lock.Acceptance
import Crabstash.Lock.Invisibility
import Crabstash.Txn.Noted
import Crabstash.Txn.Overwritten
import Crabstash.Lock.EntryCalls
import Crabstash.Lock.WaitFor
import Crabstash.Lock.ReadHolders
import Crabstash.Storage.ManifestReplay
import Crabstash.Storage.WalSessions
import Crabstash.Storage.Seek
import Crabstash.Storage.TableFile
import Crabstash.Storage.TableReads
import Crabstash.Storage.SnapshotLoop
import Crabstash.Storage.SnapshotScan
import Crabstash.Lock.GrantedModes
import Crabstash.Storage.TornWal
import Crabstash.Storage.WalPanics
import Crabstash.Storage.SegmentSizes
import Crabstash.Storage.DamagedSegments
import Crabstash.Storage.TornManifest
import Crabstash.Foundations.StrongComponents
import Crabstash.Lock.Deadlock
import Crabstash.Txn.SafeSnapshots
import Crabstash.Storage.TableContents
import Crabstash.Storage.TablePanics
import Crabstash.Storage.Precedence
import Crabstash.Storage.MemTableHistory
import Crabstash.Storage.Batches
import Crabstash.Lock.SsiBookkeeping
import Crabstash.Storage.BlockCuts
import Crabstash.Storage.FlushedTables
import Crabstash.Storage.KeyRanges
import Crabstash.Storage.SnapshotErrors
import Crabstash.Storage.ScanVersions
import Crabstash.Storage.RangeScans
import Crabstash.Storage.SoundTables
import Crabstash.Storage.PrefixScan
import Crabstash.Lock.RangeQueries
import Crabstash.Lock.ReleaseAll
import Crabstash.Lock.Pruning
import Crabstash.Txn.Changes
import Crabstash.Txn.ReadYourWrites
import Crabstash.Txn.TwoValidators
import Crabstash.Lock.LockCounts
import Crabstash.Lock.Escalation
import Crabstash.Txn.SetChanges
import Crabstash.Txn.CommitOutcomes
import Crabstash.Storage.MemTableSize
import Crabstash.Lock.RangeTree
import Crabstash.Lock.EntryWakeups
import Crabstash.Storage.CompactionLoop
import Crabstash.Storage.SyncModes
import Crabstash.Lock.WriteFilter
import Crabstash.Storage.PointInTime
import Crabstash.Lock.DeadlockChecks
import Crabstash.Storage.SharedCache
import Crabstash.Txn.SerialStore
import Crabstash.Lock.ConflictChecks
import Crabstash.Txn.SerialRestart
import Crabstash.Storage.CompactedScans
import Crabstash.Storage.ThreadedSessions
import Crabstash.Storage.DiskLsm
import Crabstash.Storage.DiskRefinement
import Crabstash.Txn.OracleThreads
