/-
The broker's request handlers: lock (single key and composite), unlock,
register/end read and write, and the dispatch over a `Request`.
-/
import LiveMutex.Lib.Vec
import LiveMutex.Grant

namespace LiveMutex

/-- What the loop of a composite grant has done so far. -/
structure MemberGrants where
  broker : Broker
  tokens : OrdMap String Nat
  maxToken : Nat
  grants : List Grant

namespace Broker

variable (env : Env) (b : Broker)

/-! ## Exclusive -/

/-- The grant at once of `handle_exclusive_lock`. -/
def grantExclusiveNow (client : ClientId) (uuid key : String) (pid : Option Int)
    (ttl : Option Duration) (keepLocksAfterDeath : Bool) (overrides : GrantOverrides)
    (lock : LockState) : Broker :=
  let minted := lock.nextOrForcedFencingToken (overrides.token 0)
  let token := minted.2
  let drawn := b.unwrapOrNewV4 env overrides.lockUuid
  let lockUuid := drawn.2
  let granted := minted.1.holdExclusive lockUuid
    { client, pid, fencingToken := token, keepLocksAfterDeath, compositeMember := false }
  let queueDepth := granted.queue.len
  let b := drawn.1.putGrant granted ⟨key, client, uuid, lockUuid, lock.fencingCounter, token⟩
  let b := b.maybeMarkIdle env key
  let b := b.trackHolder client lockUuid [key] .exclusive
  let b := b.scheduleDeadline env ttl lockUuid [key] .exclusive client
  b.send client (.lock uuid key true queueDepth (some lockUuid) (some token) (some 0) none)

/-- The enqueueing end of `handle_exclusive_lock`. -/
def queueExclusive (client : ClientId) (uuid key : String) (pid : Option Int)
    (ttl : Option Duration) (keepLocksAfterDeath force : Bool) (overrides : GrantOverrides)
    (lock : LockState) : Broker :=
  let pending : PendingRequest :=
    { requestUuid := uuid, client, pid, ttl, grantLockUuid := overrides.lockUuid
      grantFencingSeed := overrides.fencingSeed, keepLocksAfterDeath, kind := .exclusive }
  let lock := if force then lock.pushFirst pending else lock.push pending
  let depth := lock.queue.len
  let b := b.setLock key lock
  let b := b.maybeMarkIdle env key
  let b := b.trackPending client key uuid
  b.send client (.lock uuid key false depth none none (some 0) none)

def handleExclusiveLock (client : ClientId) (uuid key : String) (pid : Option Int)
    (ttl : Option Duration) (max : Option Nat) (keepLocksAfterDeath force wait : Bool)
    (overrides : GrantOverrides) : Broker :=
  let currentMax := (b.locks[key]?.map (·.max)).getD b.config.maxLockHolders
  let resolved := b.resolveMax currentMax max
  let entry := resolved.1.lockOrDefault env key
  let lock := { entry.2 with max := resolved.2 }
  let b := entry.1.setLock key lock
  if lock.writer.isNone && lock.readers.isEmpty && lock.exclusiveHolders.size < lock.max then
    b.grantExclusiveNow env client uuid key pid ttl keepLocksAfterDeath overrides lock
  else if !wait then
    b.send client (.lock uuid key false lock.queue.len none none (some 0) none)
  else b.queueExclusive env client uuid key pid ttl keepLocksAfterDeath force overrides lock

/-! ## Composite -/

/-- The grant loop of `handle_composite_lock`, from the key of index `idx` on. -/
def grantMembers (client : ClientId) (uuid : String) (pid : Option Int) (lockUuid : String)
    (overrides : GrantOverrides) : List String → Nat → MemberGrants → MemberGrants
  | [], _, acc => acc
  | k :: keys, idx, acc =>
    let entry := acc.broker.lockOrDefault env k
    let minted := entry.2.nextOrForcedFencingToken (overrides.token idx)
    let token := minted.2
    let granted := minted.1.holdExclusive lockUuid
      { client, pid, fencingToken := token, keepLocksAfterDeath := false, compositeMember := true }
    grantMembers client uuid pid lockUuid overrides keys (idx + 1)
      { broker := entry.1.setLock k granted
        tokens := acc.tokens.insert k token
        maxToken := if token > acc.maxToken then token else acc.maxToken
        grants := acc.grants ++ [⟨k, client, uuid, lockUuid, entry.2.fencingCounter, token⟩] }

/-- Nobody holds the key: no entry, or one without holder, reader and writer. -/
def isFree (key : String) : Bool :=
  match b.locks[key]? with
  | none => true
  | some s => s.writer.isNone && s.readers.isEmpty && s.exclusiveHolders.isEmpty

/-- The grant at once of `handle_composite_lock`. -/
def grantCompositeNow (client : ClientId) (uuid : String) (keys : List String) (pid : Option Int)
    (ttl : Option Duration) (lockUuid : String) (overrides : GrantOverrides) : Broker :=
  let acc := grantMembers env client uuid pid lockUuid overrides keys 0 ⟨b, ∅, 0, []⟩
  let b := acc.broker.observeFencingToken acc.maxToken
  let b := b.recordGrants acc.grants
  let b := keys.foldl (fun b k => b.maybeMarkIdle env k) b
  let b := b.trackHolder client lockUuid keys .exclusive
  let b := b.scheduleDeadline env ttl lockUuid keys .exclusive client
  b.send client (.compositeLock uuid keys true (some lockUuid) (some acc.tokens) none)

/-- The enqueueing end of `handle_composite_lock`, up to the kick of the
first key. -/
def queueComposite (client : ClientId) (uuid head : String) (keys : List String) (pid : Option Int)
    (ttl : Option Duration) (lockUuid : String) (overrides : GrantOverrides) : Broker :=
  let pending : PendingRequest :=
    { requestUuid := uuid, client, pid, ttl, grantLockUuid := none
      grantFencingSeed := overrides.fencingSeed, keepLocksAfterDeath := false
      kind := .composite
        { allKeys := keys, remainingKeys := keys, grantedKeys := [], grantedTokens := ∅
          compositeLockUuid := lockUuid } }
  let entry := b.lockOrDefault env head
  let b := entry.1.setLock head (entry.2.push pending)
  let b := b.maybeMarkIdle env head
  let b := b.trackPending client head uuid
  b.send client (.compositeLock uuid keys false (some lockUuid) none none)

def handleCompositeLock (client : ClientId) (uuid : String) (keys : List String)
    (pid : Option Int) (ttl : Option Duration) (wait : Bool) (overrides : GrantOverrides) : Broker :=
  if keys.isEmpty || keys.length > maxCompositeKeys then
    b.send client (.compositeLock uuid keys false none none
      (some s!"composite lock requires 1..={maxCompositeKeys} keys"))
  else
    match Vec.sortDedup keys with
    | [] => b
    | head :: rest =>
      let keys := head :: rest
      let drawn := b.unwrapOrNewV4 env overrides.lockUuid
      if keys.all b.isFree then
        drawn.1.grantCompositeNow env client uuid keys pid ttl drawn.2 overrides
      else if !wait then drawn.1.send client (.compositeLock uuid keys false none none none)
      else
        (drawn.1.queueComposite env client uuid head keys pid ttl drawn.2 overrides).tryGrantNext env head

/-! ## Unlock -/

end Broker

/-- What the loop of `handle_unlock` has done so far. -/
structure Unlocking where
  broker : Broker
  totalUnlocked : Bool := false
  lastDepth : Nat := 0
  wipedHolderOwnership : List (ClientId × String) := []
  removedHolderOwnership : List (ClientId × String) := []
  ownershipDenied : Bool := false

/-- The owners a targeted unlock took a hold from, and whether it met one it
may not touch. -/
structure Released where
  lock : LockState
  owners : List ClientId := []
  denied : Bool := false

/-- Release by one owner test: the holder is dropped, kept (`denied`) or absent. -/
def Released.when (r : Released) (canUnlock : ClientId → Bool) (owner : Option ClientId)
    (drop : LockState → LockState) : Released :=
  match owner with
  | none => r
  | some owner =>
    if canUnlock owner then { r with lock := drop r.lock, owners := r.owners ++ [owner] }
    else { r with denied := true }

namespace LockState

def removeExclusive (l : LockState) (lockUuid : String) : LockState :=
  { l with exclusiveHolders := l.exclusiveHolders.erase lockUuid }

def removeReader (l : LockState) (lockUuid : String) : LockState :=
  { l with readers := l.readers.erase lockUuid }

def clearWriter (l : LockState) : LockState := { l with writer := none }

/-- The writer's client, when the writer has this uuid. -/
def writerOwner (l : LockState) (lockUuid : String) : Option ClientId :=
  match l.writer with
  | none => none
  | some w => if w.lockUuid = lockUuid then some w.client else none

/-- Release the holder `target`, of whichever kind. -/
def unlockTarget (l : LockState) (canUnlock : ClientId → Bool) (target : String) : Released :=
  let r : Released := { lock := l }
  let r := r.when canUnlock (l.exclusiveHolders[target]?.map (·.client)) (·.removeExclusive target)
  let r := r.when canUnlock (l.readers[target]?.map (·.client)) (·.removeReader target)
  r.when canUnlock (l.writerOwner target) (·.clearWriter)

/-- Every holder with its owner, exclusive ones first; the two hash maps in
the given order. -/
def ownership (l : LockState) (order : List String → List String) : List (ClientId × String) :=
  (order l.exclusiveHolders.keys).filterMap (fun u => l.exclusiveHolders[u]?.map fun h => (h.client, u)) ++
  (order l.readers.keys).filterMap (fun u => l.readers[u]?.map fun h => (h.client, u)) ++
  (l.writer.map fun w => (w.client, w.lockUuid)).toList

def isHeld (l : LockState) : Bool :=
  !l.exclusiveHolders.isEmpty || !l.readers.isEmpty || l.writer.isSome

/-- Drop every holder. -/
def wipe (l : LockState) : LockState :=
  { l with exclusiveHolders := ∅, readers := ∅, writer := none }

end LockState

/-- One key of the loop of `handle_unlock`. -/
def Unlocking.key (order : List String → List String) (canUnlock : ClientId → Bool)
    (target : Option String) (acc : Unlocking) (key : String) : Unlocking :=
  match acc.broker.locks[key]? with
  | none => acc
  | some lock =>
    match target with
    | some target =>
      let r := lock.unlockTarget canUnlock target
      { acc with
        broker := acc.broker.setLock key r.lock
        totalUnlocked := acc.totalUnlocked || !r.owners.isEmpty
        removedHolderOwnership := acc.removedHolderOwnership ++ r.owners.map fun owner => (owner, target)
        ownershipDenied := acc.ownershipDenied || r.denied
        lastDepth := lock.queue.len }
    | none =>
      { acc with
        broker := acc.broker.setLock key lock.wipe
        totalUnlocked := acc.totalUnlocked || lock.isHeld
        wipedHolderOwnership := acc.wipedHolderOwnership ++ lock.ownership order
        lastDepth := lock.queue.len }

namespace Broker

variable (env : Env) (b : Broker)

/-- `can_unlock_target`, against the clients registered now. -/
def canUnlockTarget (client : ClientId) (force : Bool) (owner : ClientId) : Bool :=
  force || owner = client || !b.clients.contains owner

/-- The release loop of `handle_unlock`. -/
def unlockKeys (client : ClientId) (keys : List String) (target : Option String) (force : Bool) :
    Unlocking :=
  keys.foldl (Unlocking.key (env.order b.reads) (b.canUnlockTarget client force) target)
    { broker := { b with reads := b.reads + 1 } }

/-- Drop the bookkeeping of the holders a release took away. -/
def untrackHolders (owners : List (ClientId × String)) : Broker :=
  owners.foldl (fun b owner => b.untrackHolder owner.1 owner.2) b

/-- `handle_unlock` up to waking the waiters: the holders are gone, and so is
their bookkeeping. -/
def unlockRelease (client : ClientId) (keys : List String) (target : Option String) (force : Bool) :
    Broker :=
  let acc := b.unlockKeys env client keys target force
  match target with
  | some _ => if acc.totalUnlocked then acc.broker.untrackHolders acc.removedHolderOwnership else acc.broker
  | none => acc.broker.untrackHolders acc.wipedHolderOwnership

def unlockError (target : Option String) (force : Bool) (acc : Unlocking) : Option String :=
  if !acc.totalUnlocked && acc.ownershipDenied then
    target.map fun t =>
      "unlock lock_uuid `" ++ t ++ "` is owned by another live client; use force=true to override"
  else if !acc.totalUnlocked && force then
    target.map fun t =>
      "unlock(force=true) lock_uuid `" ++ t ++
        "` did not match any current holder for the requested keys"
  else none

def handleUnlock (client : ClientId) (uuid : String) (keys : List String) (lockUuid : Option String)
    (force : Bool) : Broker :=
  if keys.isEmpty then b.send client (.error uuid "unlock request requires at least one key")
  else if lockUuid.isNone && !force then
    b.send client (.unlock uuid keys false 0 (some "unlock requires `_uuid` or `force=true`"))
  else
    let acc := b.unlockKeys env client keys lockUuid force
    let b := (b.unlockRelease env client keys lockUuid force).tryGrantAll env keys
    b.send client
      (.unlock uuid keys acc.totalUnlocked acc.lastDepth (unlockError lockUuid force acc))

/-! ## Reader/writer -/

/-- A request of `handle_register_read` or `handle_register_write`. -/
def rwPending (client : ClientId) (uuid : String) (overrides : GrantOverrides) (kind : PendingKind) :
    PendingRequest :=
  { requestUuid := uuid, client, pid := none, ttl := none, grantLockUuid := overrides.lockUuid
    grantFencingSeed := overrides.fencingSeed, keepLocksAfterDeath := false, kind }

/-- The grant at once of `handle_register_read`. -/
def grantReadNow (client : ClientId) (uuid key : String) (overrides : GrantOverrides)
    (lock : LockState) : Broker :=
  let minted := lock.nextOrForcedFencingToken (overrides.token 0)
  let token := minted.2
  let drawn := b.unwrapOrNewV4 env overrides.lockUuid
  let lockUuid := drawn.2
  let granted := minted.1.holdReader lockUuid client token
  let readers := asU32 granted.readers.size
  let b := drawn.1.putGrant granted ⟨key, client, uuid, lockUuid, lock.fencingCounter, token⟩
  let b := b.maybeMarkIdle env key
  let b := b.trackHolder client lockUuid [key] .read
  b.send client (.registerReadResult uuid key readers false true (some lockUuid) (some token))

/-- The grant at once of `handle_register_write`. -/
def grantWriteNow (client : ClientId) (uuid key : String) (overrides : GrantOverrides)
    (lock : LockState) : Broker :=
  let minted := lock.nextOrForcedFencingToken (overrides.token 0)
  let token := minted.2
  let drawn := b.unwrapOrNewV4 env overrides.lockUuid
  let lockUuid := drawn.2
  let granted := minted.1.holdWriter lockUuid client token
  let b := drawn.1.putGrant granted ⟨key, client, uuid, lockUuid, lock.fencingCounter, token⟩
  let b := b.maybeMarkIdle env key
  let b := b.trackHolder client lockUuid [key] .write
  b.send client (.registerWriteResult uuid key 0 true true (some lockUuid) (some token))

/-- The enqueueing end of `handle_register_read` and `handle_register_write`,
up to the answer. -/
def queueRw (client : ClientId) (uuid key : String) (overrides : GrantOverrides)
    (kind : PendingKind) (lock : LockState) : Broker :=
  let b := b.setLock key (lock.push (rwPending client uuid overrides kind))
  let b := b.maybeMarkIdle env key
  b.trackPending client key uuid

def handleRegisterRead (client : ClientId) (uuid key : String) (overrides : GrantOverrides) : Broker :=
  let entry := b.lockOrDefault env key
  let lock := entry.2
  if lock.writer.isNone && lock.exclusiveHolders.isEmpty && lock.queue.isEmpty then
    entry.1.grantReadNow env client uuid key overrides lock
  else
    (entry.1.queueRw env client uuid key overrides .reader lock).send client
      (.registerReadResult uuid key (asU32 lock.readers.size) lock.writer.isSome false none none)

def handleRegisterWrite (client : ClientId) (uuid key : String) (overrides : GrantOverrides) : Broker :=
  let entry := b.lockOrDefault env key
  let lock := entry.2
  if lock.writer.isNone && lock.readers.isEmpty && lock.exclusiveHolders.isEmpty then
    entry.1.grantWriteNow env client uuid key overrides lock
  else
    (entry.1.queueRw env client uuid key overrides .writer lock).send client
      (.registerWriteResult uuid key (asU32 lock.readers.size) lock.writer.isSome false none none)

/-- `handle_end_read` on a known key, up to its answer: every read lease of
the client on it is gone. -/
def endReadRelease (client : ClientId) (key : String) (lock : LockState) : Broker :=
  let toRemove := (env.order b.reads lock.readers.keys).filter fun u =>
    lock.readers[u]?.any fun h => h.client = client
  let b := ({ b with reads := b.reads + 1 } : Broker).setLock key
    { lock with readers := toRemove.foldl (fun m u => m.erase u) lock.readers }
  b.untrackHolders (toRemove.map fun u => (client, u))

def handleEndRead (client : ClientId) (uuid key : String) : Broker :=
  match b.locks[key]? with
  | none => b.send client (.endReadResult uuid key 0)
  | some lock =>
    let b := b.endReadRelease env client key lock
    let readers := (b.locks[key]?.map fun l => asU32 l.readers.size).getD 0
    (b.send client (.endReadResult uuid key readers)).tryGrantNext env key

/-- `handle_end_write` on a known key, up to its answer. -/
def endWriteRelease (client : ClientId) (key : String) (lock : LockState) : Broker :=
  match lock.writer with
  | some w =>
    if w.client = client then (b.setLock key lock.clearWriter).untrackHolder client w.lockUuid else b
  | none => b

def handleEndWrite (client : ClientId) (uuid key : String) : Broker :=
  match b.locks[key]? with
  | none => b.tryGrantNext env key
  | some lock =>
    let b := b.endWriteRelease client key lock
    let writerFlag := (b.locks[key]?.map fun l => l.writer.isSome).getD false
    (b.send client (.endWriteResult uuid key (asU32 lock.readers.size) writerFlag)).tryGrantNext env key

/-! ## Dispatch -/

/-- `handle_request_with_grant_overrides`; `handle_request` is the case of no
overrides. -/
def handleRequest (client : ClientId) (request : Request) (overrides : GrantOverrides := {}) : Broker :=
  match request with
  | .version uuid _ => b.send client (.version uuid protocolVersion true none)
  | .auth uuid _ => b.send client (.auth uuid true none)
  | .lock uuid key keys pid ttl max force _ keepLocksAfterDeath wait =>
    let wait := wait.getD true
    let ttl := ttl.map Duration.fromMillis
    if max = some 0 then
      let err := "`max` must be >= 1; omit the field to keep the existing concurrency level"
      match keys with
      | some ks => b.send client (.compositeLock uuid ks false none none (some err))
      | none => b.send client (.lock uuid (key.getD "") false 0 none none none (some err))
    else
      match key, keys with
      | some k, none =>
        b.handleExclusiveLock env client uuid k pid ttl max keepLocksAfterDeath force wait overrides
      | none, some ks => b.handleCompositeLock env client uuid ks pid ttl wait overrides
      | some _, some _ =>
        b.send client (.error uuid "lock request must set either `key` or `keys`, not both")
      | none, none => b.send client (.error uuid "lock request requires `key` or `keys`")
  | .unlock uuid key keys lockUuid force =>
    match key, keys with
    | some k, none => b.handleUnlock env client uuid [k] lockUuid force
    | none, some ks => b.handleUnlock env client uuid ks lockUuid force
    | some _, some _ =>
      b.send client (.error uuid "unlock request must set either `key` or `keys`, not both")
    | none, none => b.send client (.error uuid "unlock request requires `key` or `keys`")
  | .registerRead uuid key => b.handleRegisterRead env client uuid key overrides
  | .registerWrite uuid key => b.handleRegisterWrite env client uuid key overrides
  | .endRead uuid key => b.handleEndRead env client uuid key
  | .endWrite uuid key => b.handleEndWrite env client uuid key
  | .lockInfo uuid key =>
    let b' : Broker := { b with reads := b.reads + 1 }
    match b.locks[key]? with
    | none => b'.send client (.lockInfo uuid key false [] 0 0 false)
    | some s =>
      let holders := (s.ownership (env.order b.reads)).map Prod.snd
      b'.send client (.lockInfo uuid key (!holders.isEmpty) holders s.queue.len
        (asU32 s.readers.size) s.writer.isSome)
  | .ls uuid =>
    ({ b with reads := b.reads + 1 } : Broker).send client (.lsResult uuid (env.order b.reads b.locks.keys))
  | .heartbeat uuid => b.send client (.ok uuid)

end Broker

end LiveMutex
