/-
What happens to the broker outside a request: a client connects or goes away,
a lock is detached from its client, the TTL sweep runs.
-/
import LiveMutex.Handlers

namespace LiveMutex

namespace Broker

variable (env : Env) (b : Broker)

/-! ## Clients -/

/-- `u64::wrapping_add(1).max(1)` on a client id -/
def nextId (id : ClientId) : ClientId := Nat.max ((id + 1) % 2 ^ 64) 1

/-- The search of `next_available_client_id`, for as many ids as could be taken. -/
def searchClientId : Nat → ClientId → ClientId
  | 0, id => id
  | fuel + 1, id =>
    if id = snapshotDetachedClient || b.clients.contains id then searchClientId fuel (nextId id) else id

def nextAvailableClientId (preferredId : ClientId) : ClientId :=
  b.searchClientId (b.clients.size + 1) (Nat.max preferredId 1)

def insertClientHandle (id : ClientId) : Broker :=
  { b.setClient id ⟨∅, []⟩ with nextClientId := nextId id }

def registerClientWithId (preferredId : ClientId) : Broker × ClientId :=
  let id := b.nextAvailableClientId preferredId
  (b.insertClientHandle id, id)

def registerClient : Broker × ClientId := b.registerClientWithId b.nextClientId

/-! ## Dropping a client -/

/-- Change the entry of a key, when there is one (`if let Some(lock) = state.locks.get_mut(key)`). -/
def modifyLock (key : String) (f : LockState → LockState) : Broker :=
  match b.locks[key]? with
  | none => b
  | some lock => b.setLock key (f lock)

end Broker

namespace LockState

/-- Take a waiter out of the queue. -/
def removeWaiter (l : LockState) (requestUuid : String) : LockState :=
  { l with queue := l.queue.remove requestUuid }

/-- `lock_contains_uuid_for_kind` -/
def containsUuidForKind (l : LockState) (lockUuid : String) : RwHoldKind → Bool
  | .exclusive => l.exclusiveHolders.contains lockUuid
  | .read => l.readers.contains lockUuid
  | .write => l.writer.any fun w => w.lockUuid = lockUuid

/-- Release the holder of this uuid and kind, if it is there. -/
def removeForKind (l : LockState) (lockUuid : String) : RwHoldKind → LockState
  | .exclusive => l.removeExclusive lockUuid
  | .read => l.removeReader lockUuid
  | .write => if l.writer.any fun w => w.lockUuid = lockUuid then l.clearWriter else l

/-- `keep_locks_after_death` is honoured for a non-composite exclusive holder only. -/
def keptAfterDeath (l : LockState) (lockUuid : String) : RwHoldKind → Bool
  | .exclusive => l.exclusiveHolders[lockUuid]?.any fun h => h.keepLocksAfterDeath && !h.compositeMember
  | _ => false

end LockState

/-- A release in progress: the broker and the keys to wake. -/
structure Dropping where
  broker : Broker
  touchedKeys : List String

namespace Dropping

/-- Do something to a key's entry, if there is one, and touch the key. -/
def touch (d : Dropping) (f : LockState → LockState) (key : String) : Dropping :=
  ⟨d.broker.modifyLock key f, d.touchedKeys.insert key⟩

/-- One key of a held lock, for a registered client: a missing entry and a
holder kept after death are passed over without touching the key. -/
def releaseHeld (lockUuid : String) (kind : RwHoldKind) (d : Dropping) (key : String) : Dropping :=
  match d.broker.locks[key]? with
  | none => d
  | some lock =>
    if lock.keptAfterDeath lockUuid kind then d
    else ⟨d.broker.setLock key (lock.removeForKind lockUuid kind), d.touchedKeys.insert key⟩

end Dropping

namespace Broker

variable (env : Env) (b : Broker)

/-- The entries of a map whose hash order is `order`. -/
def hashIter {β : Type} (order : List String → List String) (m : OrdMap String β) : List (String × β) :=
  (order m.keys).filterMap fun k => m[k]?.map fun v => (k, v)

/-- `drop_client` of a registered client, up to waking the waiters. -/
def dropRegistered (client : ClientId) (handle : ClientHandle) : Dropping :=
  let b : Broker := { b with clients := b.clients.erase client, reads := b.reads + 1 }
  let d := handle.pendingRequestUuids.foldl
    (fun d p => Dropping.touch d (·.removeWaiter p.2) p.1) ⟨b, []⟩
  (hashIter (env.order (b.reads - 1)) handle.heldLockUuids).foldl
    (fun d e => e.2.keys.foldl (Dropping.releaseHeld e.1 e.2.rwKind) d) d

/-- `drop_client` of a client without a handle (a follower replaying the
leader's ids), up to waking the waiters: everything of the client is found by
scanning the table. -/
def dropUnregistered (client : ClientId) : Dropping :=
  let order := env.order b.reads
  let locks := hashIter order b.locks
  let queuedRemovals := locks.flatMap fun kl =>
    (kl.2.queue.entries.filter fun e => e.2.client = client).map fun e => (kl.1, e.1)
  let exclusiveRemovals := locks.flatMap fun kl =>
    ((hashIter order kl.2.exclusiveHolders).filter fun e => e.2.client = client).map fun e => (kl.1, e.1)
  let readerRemovals := locks.flatMap fun kl =>
    ((hashIter order kl.2.readers).filter fun e => e.2.client = client).map fun e => (kl.1, e.1)
  let writerRemovals := (locks.filter fun kl => kl.2.writer.any fun w => w.client = client).map Prod.fst
  let d : Dropping := ⟨{ b with reads := b.reads + 1 }, []⟩
  let d := queuedRemovals.foldl (fun d p => d.touch (·.removeWaiter p.2) p.1) d
  let d := exclusiveRemovals.foldl (fun d p => d.touch (·.removeExclusive p.2) p.1) d
  let d := readerRemovals.foldl (fun d p => d.touch (·.removeReader p.2) p.1) d
  writerRemovals.foldl (fun d key => d.touch (·.clearWriter) key) d

/-- Walk the touched keys in hash order. -/
def wakeTouched (d : Dropping) (wake : Broker → String → Broker) : Broker :=
  (env.order d.broker.reads d.touchedKeys).foldl wake { d.broker with reads := d.broker.reads + 1 }

def dropClient (client : ClientId) : Broker :=
  match b.clients[client]? with
  | none =>
    wakeTouched env (b.dropUnregistered env client) fun b key => (b.maybeMarkIdle env key).tryGrantNext env key
  | some handle =>
    wakeTouched env (b.dropRegistered env client handle) fun b key => b.tryGrantNext env key

/-! ## Detaching -/

def detachLockFromClient (client : ClientId) (lockUuid : String) : Broker := b.untrackHolder client lockUuid

end Broker

/-- The owner changes of `detach_lock_owner` on one key. -/
def LockState.detachOwner (l : LockState) (lockUuid : String) : LockState :=
  { l with
    exclusiveHolders := l.exclusiveHolders.modify lockUuid fun h => { h with client := snapshotDetachedClient }
    readers := l.readers.modify lockUuid fun h => { h with client := snapshotDetachedClient }
    writer := l.writer.map fun w =>
      if w.lockUuid = lockUuid then { w with client := snapshotDetachedClient } else w }

/-- The clients holding a key under this uuid. -/
def LockState.ownersOf (l : LockState) (lockUuid : String) : List ClientId :=
  (l.exclusiveHolders[lockUuid]?.map (·.client)).toList ++ (l.readers[lockUuid]?.map (·.client)).toList ++
  (l.writerOwner lockUuid).toList

namespace Broker

variable (env : Env) (b : Broker)

/-- One touched client of `detach_lock_owner`: its bookkeeping forgets the
lock, and a handle left with nothing is removed. -/
def detachFrom (lockUuid : String) (b : Broker) (client : ClientId) : Broker :=
  if client = snapshotDetachedClient then b
  else
    match b.clients[client]? with
    | none => b
    | some handle =>
      let handle := { handle with heldLockUuids := handle.heldLockUuids.erase lockUuid }
      if handle.heldLockUuids.isEmpty && handle.pendingRequestUuids.isEmpty then
        { b with clients := b.clients.erase client }
      else b.setClient client handle

def detachLockOwner (lockUuid : String) : Broker :=
  let touchedClients := (b.locks.toList.flatMap fun kl => kl.2.ownersOf lockUuid).dedup
  let b : Broker := { b with locks := b.locks.map fun _ l => l.detachOwner lockUuid }
  touchedClients.foldl (detachFrom lockUuid) b

/-! ## The TTL sweep -/

end Broker

/-- What the deadline loop of `tick_ttl` has done so far. -/
structure Sweeping extends Dropping where
  evictedCount : Nat

namespace Broker

variable (env : Env) (b : Broker)

/-- `deadline_entry_is_still_held` -/
def deadlineEntryIsStillHeld (entry : DeadlineEntry) : Bool :=
  entry.keys.any fun key => b.locks[key]?.any fun l => l.containsUuidForKind entry.lockUuid entry.kind

end Broker

/-- Every key of an expired deadline loses the holder. -/
def Dropping.evict (d : Dropping) (entry : DeadlineEntry) : Dropping :=
  entry.keys.foldl (fun d k => d.touch (·.removeForKind entry.lockUuid entry.kind) k) d

/-- One expired deadline of `tick_ttl`: stale entries are skipped, a live one
loses every key. -/
def Sweeping.expire (s : Sweeping) (key : DeadlineKey) : Sweeping :=
  match s.broker.deadlines[key]? with
  | none => s
  | some entry =>
    let b : Broker := { s.broker with deadlines := s.broker.deadlines.erase key }
    if b.deadlineEntryIsStillHeld entry then
      let d := Dropping.evict ⟨b, s.touchedKeys⟩ entry
      let b := d.broker.untrackHolder entry.client entry.lockUuid
      { broker := { b with ttlEvictionsTotal := (b.ttlEvictionsTotal + 1) % 2 ^ 64 }
        touchedKeys := d.touchedKeys
        evictedCount := s.evictedCount + 1 }
    else { s with broker := b }

namespace Broker

variable (env : Env) (b : Broker)

/-- The deadlines in `..=(now, u64::MAX)`. -/
def expiredKeys (now : Instant) : List DeadlineKey :=
  b.deadlines.keys.filter fun k => k.1 < now || (k.1 = now && k.2 ≤ u64Max)

/-- The deadline loop of `tick_ttl`. -/
def sweep (now : Instant) : Sweeping :=
  (b.expiredKeys now).foldl Sweeping.expire ⟨⟨b, []⟩, 0⟩

/-- The keys the prune sweep reclaims. -/
def pruneKeys (cutoff : Instant) : List String :=
  b.locks.keys.filter fun k => b.locks[k]?.any fun l => l.timestampEmptied.any (· ≤ cutoff) && l.isIdle

/-- The prune sweep of `tick_ttl`. -/
def prune (now : Instant) : Broker :=
  if b.config.idleKeyGrace = 0 then b
  else
    match env.checkedSub now b.config.idleKeyGrace with
    | none => b
    | some cutoff =>
      let gone := b.pruneKeys cutoff
      { b with
        locks := gone.foldl (fun m k => m.erase k) b.locks
        idleKeysPrunedTotal := (b.idleKeysPrunedTotal + gone.length) % 2 ^ 64 }

def tickTtl (now : Instant) : Broker × Nat :=
  let s := b.sweep now
  let b := wakeTouched env s.toDropping fun b key => b.tryGrantNext env key
  (b.prune env now, s.evictedCount)

end Broker

end LiveMutex
