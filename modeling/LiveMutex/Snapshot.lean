/-
Raft snapshots of the broker: `snapshot_for_raft`, its validation, and
`install_broker_raft_snapshot`.

The JSON the snapshot travels as is left out: a snapshot is the record it
serializes.
-/
import Mathlib.Data.List.Lex
import LiveMutex.Lifecycle

namespace LiveMutex

structure BrokerRaftSnapshotMetrics where
  keys : Nat
  holders : Nat
  waiters : Nat
  clients : Nat
  pendingDeadlines : Nat
  ttlEvictionsTotal : Nat
  maxConcurrencyCap : Nat
  concurrencyCapClampsTotal : Nat
  fencingWatermark : Nat
  idleKeysPrunedTotal : Nat
  deriving DecidableEq, Repr

structure BrokerRaftExclusiveHolderSnapshot where
  lockUuid : String
  pid : Option Int
  fencingToken : Nat
  keepLocksAfterDeath : Bool
  compositeMember : Bool
  deriving DecidableEq, Repr

structure BrokerRaftRwHolderSnapshot where
  lockUuid : String
  fencingToken : Nat
  deriving DecidableEq, Repr

structure BrokerRaftPendingRequestSnapshot where
  requestUuid : String
  clientId : ClientId
  pid : Option Int
  ttlMs : Option Nat
  grantLockUuid : Option String
  grantFencingSeed : Option Nat
  keepLocksAfterDeath : Bool
  /-- `BrokerRaftPendingKindSnapshot` has the variants and fields of `PendingKind`. -/
  kind : PendingKind
  deriving DecidableEq

structure BrokerRaftLockSnapshot where
  key : String
  max : Nat
  fencingCounter : Nat
  exclusiveHolders : List BrokerRaftExclusiveHolderSnapshot
  readers : List BrokerRaftRwHolderSnapshot
  writer : Option BrokerRaftRwHolderSnapshot
  queue : List BrokerRaftPendingRequestSnapshot
  idle : Bool
  deriving DecidableEq

structure BrokerRaftDeadlineSnapshot where
  lockUuid : String
  keys : List String
  kind : RwHoldKind
  remainingMs : Nat
  deriving DecidableEq, Repr

structure BrokerRaftSnapshot where
  schemaVersion : Nat
  metrics : BrokerRaftSnapshotMetrics
  locks : List BrokerRaftLockSnapshot
  deadlines : List BrokerRaftDeadlineSnapshot
  deriving DecidableEq

/-- `duration_ms_u64` -/
def durationMsU64 (d : Duration) : Nat := min d.asMillis u64Max

/-! ## Taking a snapshot -/

/-- `broker_metrics_from_state` -/
def Broker.metrics (b : Broker) : BrokerRaftSnapshotMetrics where
  keys := b.locks.size
  holders := b.locks.sumBy fun l => l.exclusiveHolders.size + l.readers.size + l.writer.toList.length
  waiters := b.locks.sumBy fun l => l.queue.len
  clients := b.clients.size
  pendingDeadlines := b.deadlines.size
  ttlEvictionsTotal := b.ttlEvictionsTotal
  maxConcurrencyCap := b.config.maxConcurrencyCap
  concurrencyCapClampsTotal := b.concurrencyCapClampsTotal
  fencingWatermark := b.fencingWatermark
  idleKeysPrunedTotal := b.idleKeysPrunedTotal

def PendingRequest.snapshot (p : PendingRequest) : BrokerRaftPendingRequestSnapshot where
  requestUuid := p.requestUuid
  clientId := p.client
  pid := p.pid
  ttlMs := p.ttl.map durationMsU64
  grantLockUuid := p.grantLockUuid
  grantFencingSeed := p.grantFencingSeed
  keepLocksAfterDeath := p.keepLocksAfterDeath
  kind := p.kind

def LockState.snapshot (key : String) (l : LockState) : BrokerRaftLockSnapshot where
  key := key
  max := l.max
  fencingCounter := l.fencingCounter
  exclusiveHolders := l.exclusiveHolders.toList.map fun e =>
    ⟨e.1, e.2.pid, e.2.fencingToken, e.2.keepLocksAfterDeath, e.2.compositeMember⟩
  readers := l.readers.toList.map fun e => ⟨e.1, e.2.fencingToken⟩
  writer := l.writer.map fun w => ⟨w.lockUuid, w.fencingToken⟩
  queue := l.queue.entries.map fun e => e.2.snapshot
  idle := l.isIdle

/-- `deadline.saturating_duration_since(now)` -/
def saturatingDurationSince (deadline now : Instant) : Duration := (deadline - now).toNat

/-- The order of the exported deadlines: by lock uuid, then by keys. -/
def BrokerRaftDeadlineSnapshot.le (d e : BrokerRaftDeadlineSnapshot) : Prop :=
  d.lockUuid < e.lockUuid ∨ d.lockUuid = e.lockUuid ∧ d.keys ≤ e.keys

instance : DecidableRel BrokerRaftDeadlineSnapshot.le := fun _ _ => inferInstanceAs (Decidable (_ ∨ _))

/-- The deadlines exported at `now`: those with a key still held. -/
def Broker.deadlineSnapshots (b : Broker) (now : Instant) : List BrokerRaftDeadlineSnapshot :=
  (b.deadlines.toList.filter fun e => b.deadlineEntryIsStillHeld e.2).map fun e =>
    ⟨e.2.lockUuid, e.2.keys, e.2.kind, durationMsU64 (saturatingDurationSince e.1.1 now)⟩

/-- `snapshot_for_raft`, with `Instant::now()` reading `now`. -/
def Broker.snapshotForRaft (b : Broker) (now : Instant) : BrokerRaftSnapshot where
  schemaVersion := 1
  metrics := b.metrics
  locks := b.locks.toList.map fun kl => kl.2.snapshot kl.1
  deadlines := (b.deadlineSnapshots now).insertionSort BrokerRaftDeadlineSnapshot.le

/-! ## Validation -/

/-- `if refused { return Err(err) }` -/
def refuseIf (refused : Bool) (err : String) : Except String Unit :=
  if refused then .error err else .ok ()

/-- Insert into a set, refusing an empty string and a repeated one. -/
def insertUuid (emptyErr : String) (repeatErr : String → String) (seen : List String) (uuid : String) :
    Except String (List String) := do
  refuseIf uuid.isEmpty emptyErr
  refuseIf (seen.contains uuid) (repeatErr uuid)
  return seen ++ [uuid]

/-- Insert into a set, refusing an element outside `all` and a repeated one. -/
def insertMember (all : List String) (outsideErr repeatErr : String → String) (seen : List String)
    (key : String) : Except String (List String) := do
  refuseIf (!all.contains key) (outsideErr key)
  refuseIf (seen.contains key) (repeatErr key)
  return seen ++ [key]

/-- The checks of a composite waiter queued on `lockKey`. -/
def validateCompositeWaiter (lockKey : String) (c : Composite) : Except String Unit := do
  let lock := "broker snapshot lock `" ++ lockKey ++ "` "
  refuseIf c.compositeLockUuid.isEmpty (lock ++ "has an empty composite lock uuid")
  refuseIf (c.allKeys.isEmpty || c.allKeys.length > maxCompositeKeys)
    (lock ++ "has invalid composite key count " ++ toString c.allKeys.length)
  refuseIf c.remainingKeys.isEmpty (lock ++ "has a composite waiter with no remaining keys")
  refuseIf (c.remainingKeys.head?.any (· ≠ lockKey)) (lock ++ "has composite waiter queued on the wrong key")
  let all ← c.allKeys.foldlM
    (insertUuid (lock ++ "has an empty composite key") fun k => lock ++ "repeats composite key `" ++ k ++ "`") []
  let outside := fun k => lock ++ "has composite sub-key `" ++ k ++ "` outside allKeys"
  let remaining ← c.remainingKeys.foldlM
    (insertMember all outside fun k => lock ++ "repeats remaining composite key `" ++ k ++ "`") []
  let granted ← c.grantedKeys.foldlM (fun seen k => do
    let seen ← insertMember all outside (fun k => lock ++ "repeats granted composite key `" ++ k ++ "`") seen k
    refuseIf (remaining.contains k)
      (lock ++ "has composite key `" ++ k ++ "` in both remainingKeys and grantedKeys")
    return seen) []
  c.grantedTokens.keys.forM fun k =>
    refuseIf (!all.contains k) (lock ++ "has granted token for unknown key `" ++ k ++ "`")
  refuseIf (!(all.all fun k => remaining.contains k || granted.contains k))
    (lock ++ "composite waiter does not partition allKeys")
  refuseIf (!(c.grantedTokens.keys.all granted.contains && granted.all fun k => c.grantedTokens.contains k))
    (lock ++ "composite granted token keys do not match grantedKeys")

/-- `validate_broker_raft_waiter_snapshot` -/
def validateBrokerRaftWaiterSnapshot (lockKey : String) (waiter : BrokerRaftPendingRequestSnapshot) :
    Except String Unit := do
  let lock := "broker snapshot lock `" ++ lockKey ++ "` "
  refuseIf waiter.requestUuid.isEmpty (lock ++ "has an empty queued request uuid")
  refuseIf (waiter.grantLockUuid.any String.isEmpty) (lock ++ "has an empty queued grant lock uuid")
  match waiter.kind with
  | .exclusive | .reader | .writer => return
  | .composite c => validateCompositeWaiter lockKey c

/-- One lock of `validate_broker_raft_snapshot`; `keys` are those seen before. -/
def validateLockSnapshot (keys : List String) (lock : BrokerRaftLockSnapshot) :
    Except String (List String) := do
  let name := "broker snapshot lock `" ++ lock.key ++ "` "
  refuseIf lock.key.isEmpty "broker snapshot contains an empty lock key"
  refuseIf (keys.contains lock.key) ("broker snapshot contains duplicate lock key `" ++ lock.key ++ "`")
  refuseIf (lock.max = 0) (name ++ "has invalid max=0")
  let repeats := fun u => name ++ "repeats holder uuid `" ++ u ++ "`"
  let uuids ← (lock.exclusiveHolders.map (·.lockUuid)).foldlM
    (insertUuid (name ++ "has an empty exclusive holder uuid") repeats) []
  let uuids ← (lock.readers.map (·.lockUuid)).foldlM
    (insertUuid (name ++ "has an empty reader uuid") repeats) uuids
  let _ ← (lock.writer.toList.map (·.lockUuid)).foldlM
    (insertUuid (name ++ "has an empty writer uuid") repeats) uuids
  refuseIf (lock.idle && (!lock.exclusiveHolders.isEmpty || !lock.readers.isEmpty ||
      lock.writer.isSome || !lock.queue.isEmpty)) (name ++ "is marked idle while it has active state")
  let _ ← lock.queue.foldlM (fun seen waiter => do
    validateBrokerRaftWaiterSnapshot lock.key waiter
    refuseIf (seen.contains waiter.requestUuid)
      (name ++ "repeats queued request uuid `" ++ waiter.requestUuid ++ "`")
    return seen ++ [waiter.requestUuid]) ([] : List String)
  return keys ++ [lock.key]

/-- The lock lists a holder of this uuid and kind. -/
def BrokerRaftLockSnapshot.holds (lock : BrokerRaftLockSnapshot) (lockUuid : String) : RwHoldKind → Bool
  | .exclusive => lock.exclusiveHolders.any fun h => h.lockUuid = lockUuid
  | .read => lock.readers.any fun h => h.lockUuid = lockUuid
  | .write => lock.writer.any fun h => h.lockUuid = lockUuid

/-- `snapshot_deadline_matches_locks` -/
def snapshotDeadlineMatchesLocks (locks : List BrokerRaftLockSnapshot) (d : BrokerRaftDeadlineSnapshot) :
    Bool :=
  d.keys.all fun key => (locks.find? fun l => l.key = key).any fun l => l.holds d.lockUuid d.kind

/-- One deadline of `validate_broker_raft_snapshot`. -/
def validateDeadlineSnapshot (locks : List BrokerRaftLockSnapshot) (d : BrokerRaftDeadlineSnapshot) :
    Except String Unit := do
  let name := "broker snapshot deadline for `" ++ d.lockUuid ++ "` "
  refuseIf d.lockUuid.isEmpty "broker snapshot deadline has an empty lock uuid"
  refuseIf d.keys.isEmpty (name ++ "has no keys")
  refuseIf (d.keys.any String.isEmpty) (name ++ "contains an empty key")
  refuseIf (!snapshotDeadlineMatchesLocks locks d) (name ++ "does not match restored holder state")

def validateBrokerRaftSnapshot (snapshot : BrokerRaftSnapshot) : Except String Unit := do
  refuseIf (snapshot.schemaVersion ≠ 1)
    ("unsupported broker snapshot schema version " ++ toString snapshot.schemaVersion)
  let _ ← snapshot.locks.foldlM validateLockSnapshot []
  let totalWaiters := (snapshot.locks.map (·.queue.length)).sum
  refuseIf (snapshot.metrics.waiters ≠ totalWaiters)
    ("broker snapshot waiters metric mismatch: metrics.waiters=" ++ toString snapshot.metrics.waiters ++
      " queued=" ++ toString totalWaiters)
  snapshot.deadlines.forM (validateDeadlineSnapshot snapshot.locks)

/-! ## Installing a snapshot -/

def BrokerRaftPendingRequestSnapshot.restore (w : BrokerRaftPendingRequestSnapshot) : PendingRequest where
  requestUuid := w.requestUuid
  client := w.clientId
  pid := w.pid
  ttl := w.ttlMs.map Duration.fromMillis
  grantLockUuid := w.grantLockUuid
  grantFencingSeed := w.grantFencingSeed
  keepLocksAfterDeath := w.keepLocksAfterDeath
  kind := w.kind

/-- The entry a lock snapshot is restored to, up to its idle stamp: its
holders belong to no client. -/
def BrokerRaftLockSnapshot.lock (s : BrokerRaftLockSnapshot) (cap : Nat) : LockState :=
  let tokens := s.exclusiveHolders.map (·.fencingToken) ++ s.readers.map (·.fencingToken) ++
    s.writer.toList.map (·.fencingToken)
  { exclusiveHolders := s.exclusiveHolders.foldl (fun m h => m.insert h.lockUuid
      ⟨snapshotDetachedClient, h.pid, h.fencingToken, h.keepLocksAfterDeath, h.compositeMember⟩) ∅
    max := Nat.max (Nat.min (Nat.max s.max 1) cap) 1
    readers := s.readers.foldl (fun m h => m.insert h.lockUuid
      ⟨snapshotDetachedClient, h.fencingToken, h.lockUuid⟩) ∅
    writer := s.writer.map fun h => ⟨snapshotDetachedClient, h.fencingToken, h.lockUuid⟩
    queue := s.queue.foldl (fun q w => (q.pushBack w.requestUuid w.restore).1) .empty
    fencingCounter := tokens.foldl Nat.max s.fencingCounter
    timestampEmptied := none }

def BrokerRaftLockSnapshot.restore (s : BrokerRaftLockSnapshot) (cap : Nat) (now : Instant) : LockState :=
  let lock := s.lock cap
  if lock.isIdle && s.idle then { lock with timestampEmptied := some now } else lock

namespace Broker

/-- One lock of `install_broker_raft_snapshot`. -/
def installLock (now : Instant) (next : Broker) (s : BrokerRaftLockSnapshot) : Broker :=
  let lock := s.restore next.config.cap now
  { next.setLock s.key lock with
    fencingWatermark := Nat.max next.fencingWatermark lock.fencingCounter
    nextClientId := (s.queue.map fun w => saturatingAdd w.clientId 1).foldl Nat.max next.nextClientId }

/-- `snapshot_deadline_matches_state` -/
def snapshotDeadlineMatchesState (b : Broker) (d : BrokerRaftDeadlineSnapshot) : Bool :=
  d.keys.all fun key => b.locks[key]?.any fun l => l.containsUuidForKind d.lockUuid d.kind

/-- One deadline of `install_broker_raft_snapshot`. -/
def installDeadline (env : Env) (now : Instant) (next : Broker) (d : BrokerRaftDeadlineSnapshot) :
    Except String Broker :=
  if !next.snapshotDeadlineMatchesState d then
    .error ("broker snapshot deadline for `" ++ d.lockUuid ++ "` does not match restored holder state")
  else
    let seq := (next.deadlineSeq + 1) % 2 ^ 64
    let deadlineAt := (env.checkedAdd now (.fromMillis d.remainingMs)).getD now
    .ok { next with
      deadlineSeq := seq
      deadlines := next.deadlines.insert (deadlineAt, seq) ⟨d.lockUuid, d.keys, d.kind, snapshotDetachedClient⟩ }

def installBrokerRaftSnapshot (env : Env) (b : Broker) (snapshot : BrokerRaftSnapshot) :
    Except String Broker :=
  let now := env.now b.reads
  let next : Broker :=
    { BrokerState.new b.config with
      ttlEvictionsTotal := snapshot.metrics.ttlEvictionsTotal
      concurrencyCapClampsTotal := snapshot.metrics.concurrencyCapClampsTotal
      fencingWatermark := snapshot.metrics.fencingWatermark
      idleKeysPrunedTotal := snapshot.metrics.idleKeysPrunedTotal
      reads := b.reads + 1 + snapshot.locks.length
      sent := b.sent
      grants := b.grants }
  let next := snapshot.locks.foldl (installLock now) next
  snapshot.deadlines.foldlM (installDeadline env now) next

/-- `install_raft_snapshot` on a payload with a broker snapshot. -/
def installRaftSnapshot (env : Env) (b : Broker) (snapshot : BrokerRaftSnapshot) : Except String Broker := do
  validateBrokerRaftSnapshot snapshot
  b.installBrokerRaftSnapshot env snapshot

end Broker

end LiveMutex
