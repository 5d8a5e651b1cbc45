import LiveMutex.Lib.LinkedQueue
import LiveMutex.Lib.OrdMap
import LiveMutex.Protocol
import LiveMutex.State
import LiveMutex.Grant
import LiveMutex.Handlers
import LiveMutex.Lifecycle
import LiveMutex.Snapshot
import LiveMutex.Apply
import LiveMutex.Lib.Trace
import LiveMutex.Lib.Vec
import LiveMutex.StateFacts
import LiveMutex.Machine
import LiveMutex.Refine
import LiveMutex.RefineGrant
import LiveMutex.RefineOps
import LiveMutex.RefineRelease
import LiveMutex.Sends
import LiveMutex.SnapshotFacts
import LiveMutex.Run
import LiveMutex.Sample
import LiveMutex.Exclusion
import LiveMutex.CompositeWait
import LiveMutex.Sane
import LiveMutex.Named
import LiveMutex.SnapshotValid
import LiveMutex.Wakeup
import LiveMutex.CascadeEnds
import LiveMutex.LockMax
import LiveMutex.IdleStamp
import LiveMutex.Strip
import LiveMutex.Waiting
import LiveMutex.Ledger
import LiveMutex.LedgerRefine
import LiveMutex.LedgerOps
import LiveMutex.LedgerRelease
import LiveMutex.LedgerFacts
import LiveMutex.Fencing
import LiveMutex.Restored
import LiveMutex.Clients
import LiveMutex.Consistent
import LiveMutex.Reserved
import LiveMutex.Conserve
import LiveMutex.CompositeGrant
import LiveMutex.SnapshotInstall
import LiveMutex.SnapshotAgain
import LiveMutex.Answer
import LiveMutex.Guards
import LiveMutex.StepFacts
import LiveMutex.CompositeAlone
import LiveMutex.Fifo
import LiveMutex.TtlSweep
import LiveMutex.HoldStable
import LiveMutex.DropClient
import LiveMutex.Client
import LiveMutex.ClientGrant
import LiveMutex.Server
import LiveMutex.AuthGate
import LiveMutex.FrameReads
import LiveMutex.Raft.Log
import LiveMutex.Raft.Store
import LiveMutex.Raft.Repair
import LiveMutex.Lib.Majority
import LiveMutex.Raft.Membership
import LiveMutex.Raft.Node
import LiveMutex.Raft.CommitAdvance
import LiveMutex.Raft.Cluster
import LiveMutex.Raft.Votes
import LiveMutex.Raft.HardState
import LiveMutex.Raft.ResponseCache
import LiveMutex.Raft.LogStore
import LiveMutex.Raft.Dedup
import LiveMutex.Raft.Elections
import LiveMutex.Raft.NodeFacts
import LiveMutex.Raft.Gapless
import LiveMutex.Raft.Applied
import LiveMutex.Raft.StoreIdentity
import LiveMutex.Raft.StoreChecks
import LiveMutex.Raft.StoreExact
import LiveMutex.Raft.FollowerAppend
import LiveMutex.Raft.AgeCompaction
import LiveMutex.Raft.AppendBatch
import LiveMutex.Raft.ProtocolVersion
import LiveMutex.Raft.Sessions
import LiveMutex.Raft.SessionTables
import LiveMutex.Raft.QuorumSize
import LiveMutex.Raft.Fanout
import LiveMutex.Raft.SnapshotChunks
import LiveMutex.Raft.SnapshotStaging
