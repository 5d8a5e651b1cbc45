/-
The broker's state: lock states by key, client handles, the deadline index
and the counters, and the small operations every handler is built from.

The broker keeps all of it under one mutex, so an operation is a function from
a state to a state. What it asks of its surroundings (`Uuid::new_v4`,
`Instant::now`, the wall clock, the order a hash table is walked in) comes
from an `Env`, by the number of the reading: `reads` counts them. A property
proved for every `Env` holds whatever clock, identifiers and hash seeds a
process gets.

Two more fields are not the source's: `sent` lists what was sent, with the
lock table at that moment, and `grants` lists the fencing tokens given out.
Nothing reads them.
-/
import LiveMutex.Lib.LinkedQueue
import LiveMutex.Protocol

namespace LiveMutex

/-- `Instant`, in nanoseconds from a fixed origin. -/
abbrev Instant := Int

/-- `Duration`, in nanoseconds. -/
abbrev Duration := Nat

def Duration.fromMillis (ms : Nat) : Duration := ms * 1000000

def Duration.asMillis (d : Duration) : Nat := d / 1000000

/-- The client of a holder that belongs to no connection. -/
def snapshotDetachedClient : ClientId := 0

/-- What the process running the broker answers, reading by reading. -/
structure Env where
  /-- `Uuid::new_v4().to_string()` -/
  newV4 : Nat → String
  /-- `Instant::now()` -/
  now : Nat → Instant
  /-- `SystemTime::now()` in milliseconds since the epoch, `0` before it -/
  unixMillis : Nat → Nat
  /-- The order in which a hash set or map with these keys is walked. -/
  order : Nat → List String → List String
  /-- The range of `Instant` on the platform. -/
  instantMin : Instant
  instantMax : Instant
  newV4_ne : ∀ n, newV4 n ≠ ""
  unixMillis_le : ∀ n, unixMillis n ≤ u64Max
  order_perm : ∀ n l, (order n l).Perm l

/-- `Instant::checked_add` -/
def Env.checkedAdd (env : Env) (t : Instant) (d : Duration) : Option Instant :=
  if t + d ≤ env.instantMax then some (t + d) else none

/-- `Instant::checked_sub` -/
def Env.checkedSub (env : Env) (t : Instant) (d : Duration) : Option Instant :=
  if env.instantMin ≤ t - d then some (t - d) else none

structure BrokerConfig where
  maxLockHolders : Nat
  maxConcurrencyCap : Nat
  idleKeyGrace : Duration
  /-- The cap is a `u32`. -/
  maxConcurrencyCap_lt : maxConcurrencyCap < 2 ^ 32

/-- The broker-wide ceiling on one key's holders. -/
def BrokerConfig.cap (c : BrokerConfig) : Nat := max c.maxConcurrencyCap 1

inductive RwHoldKind where
  | exclusive
  | read
  | write
  deriving DecidableEq, Repr

structure KeysOfLock where
  keys : List String
  rwKind : RwHoldKind
  deriving DecidableEq, Repr

structure ClientHandle where
  heldLockUuids : OrdMap String KeysOfLock
  pendingRequestUuids : List (String × String)
  deriving DecidableEq

structure ExclusiveHolder where
  client : ClientId
  pid : Option Int
  fencingToken : Nat
  keepLocksAfterDeath : Bool
  compositeMember : Bool
  deriving DecidableEq, Repr

structure RwHolder where
  client : ClientId
  fencingToken : Nat
  lockUuid : String
  deriving DecidableEq, Repr

/-- How far a composite request has come. -/
structure Composite where
  allKeys : List String
  remainingKeys : List String
  grantedKeys : List String
  grantedTokens : OrdMap String Nat
  compositeLockUuid : String
  deriving DecidableEq

inductive PendingKind where
  | exclusive
  | reader
  | writer
  | composite (c : Composite)
  deriving DecidableEq

structure PendingRequest where
  requestUuid : String
  client : ClientId
  pid : Option Int
  ttl : Option Duration
  grantLockUuid : Option String
  grantFencingSeed : Option Nat
  keepLocksAfterDeath : Bool
  kind : PendingKind
  deriving DecidableEq

structure GrantOverrides where
  lockUuid : Option String := none
  fencingSeed : Option Nat := none
  deriving DecidableEq, Repr

/-- `u64::saturating_add` -/
def saturatingAdd (a b : Nat) : Nat := min (a + b) u64Max

def GrantOverrides.token (g : GrantOverrides) (offset : Nat) : Option Nat :=
  g.fencingSeed.map fun seed => saturatingAdd seed offset

structure LockState where
  exclusiveHolders : OrdMap String ExclusiveHolder
  max : Nat
  readers : OrdMap String RwHolder
  writer : Option RwHolder
  queue : LinkedQueue String PendingRequest
  fencingCounter : Nat
  timestampEmptied : Option Instant
  deriving DecidableEq

abbrev LockTable := OrdMap String LockState

structure DeadlineEntry where
  lockUuid : String
  keys : List String
  kind : RwHoldKind
  client : ClientId
  deriving DecidableEq, Repr

/-- `(Instant, u64)`, in the tuple's own order. -/
abbrev DeadlineKey := Instant × Nat

instance : Ord DeadlineKey := lexOrd
instance : Std.TransOrd DeadlineKey := inferInstanceAs (@Std.TransOrd (Instant × Nat) lexOrd)
instance : Std.LawfulEqOrd DeadlineKey := inferInstanceAs (@Std.LawfulEqOrd (Instant × Nat) lexOrd)

structure BrokerState where
  locks : LockTable
  clients : OrdMap ClientId ClientHandle
  nextClientId : ClientId
  config : BrokerConfig
  deadlines : OrdMap DeadlineKey DeadlineEntry
  deadlineSeq : Nat
  ttlEvictionsTotal : Nat
  concurrencyCapClampsTotal : Nat
  fencingWatermark : Nat
  idleKeysPrunedTotal : Nat

/-- A call of `send`: the response, whether its client was registered, and
the lock table at that moment. -/
structure Sent where
  client : ClientId
  response : Response
  delivered : Bool
  locks : LockTable

/-- A fencing token given out on a key, and the counter it was minted from. -/
structure Grant where
  key : String
  client : ClientId
  requestUuid : String
  lockUuid : String
  counter : Nat
  token : Nat
  deriving DecidableEq, Repr

/-- The broker, with its surroundings' readings and what it has answered so
far (newest first). -/
structure Broker extends BrokerState where
  reads : Nat
  sent : List Sent
  grants : List Grant

/-! ## One key -/

namespace LockState

def new (max : Nat) (unixMillis : Nat) : LockState where
  exclusiveHolders := ∅
  max := Nat.max max 1
  readers := ∅
  writer := none
  queue := .empty
  fencingCounter := unixMillis
  timestampEmptied := none

def isIdle (l : LockState) : Bool :=
  l.exclusiveHolders.isEmpty && l.readers.isEmpty && l.writer.isNone && l.queue.isEmpty

def nextFencingToken (l : LockState) : LockState × Nat :=
  let counter := Nat.max ((l.fencingCounter + 1) % 2 ^ 64) 1
  ({ l with fencingCounter := counter }, counter)

def nextOrForcedFencingToken (l : LockState) (forced : Option Nat) : LockState × Nat :=
  match forced with
  | some token => ({ l with fencingCounter := Nat.max l.fencingCounter token }, token)
  | none => l.nextFencingToken

def holdExclusive (l : LockState) (lockUuid : String) (holder : ExclusiveHolder) : LockState :=
  { l with exclusiveHolders := l.exclusiveHolders.insert lockUuid holder }

def holdReader (l : LockState) (lockUuid : String) (client : ClientId) (fencingToken : Nat) : LockState :=
  { l with readers := l.readers.insert lockUuid { client, fencingToken, lockUuid } }

def holdWriter (l : LockState) (lockUuid : String) (client : ClientId) (fencingToken : Nat) : LockState :=
  { l with writer := some { client, fencingToken, lockUuid } }

def pop (l : LockState) : LockState := { l with queue := l.queue.popFront.2 }

def push (l : LockState) (p : PendingRequest) : LockState :=
  { l with queue := (l.queue.pushBack p.requestUuid p).1 }

def pushFirst (l : LockState) (p : PendingRequest) : LockState :=
  { l with queue := (l.queue.pushFront p.requestUuid p).1 }

end LockState

/-! ## The broker's own helpers -/

def BrokerState.new (config : BrokerConfig) : BrokerState where
  locks := ∅
  clients := ∅
  nextClientId := 1
  config := config
  deadlines := ∅
  deadlineSeq := 0
  ttlEvictionsTotal := 0
  concurrencyCapClampsTotal := 0
  fencingWatermark := 0
  idleKeysPrunedTotal := 0

namespace Broker

def new (config : BrokerConfig) : Broker :=
  { BrokerState.new config with reads := 0, sent := [], grants := [] }

variable (env : Env) (b : Broker)

def setLock (key : String) (lock : LockState) : Broker :=
  { b with locks := b.locks.insert key lock }

def setClient (client : ClientId) (handle : ClientHandle) : Broker :=
  { b with clients := b.clients.insert client handle }

def observeFencingToken (token : Nat) : Broker :=
  if token > b.fencingWatermark then { b with fencingWatermark := token } else b

def maybeMarkIdle (key : String) : Broker :=
  match b.locks[key]? with
  | none => b
  | some lock =>
    if lock.isIdle then
      if lock.timestampEmptied.isNone then
        { b.setLock key { lock with timestampEmptied := some (env.now b.reads) } with reads := b.reads + 1 }
      else b
    else if lock.timestampEmptied.isSome then b.setLock key { lock with timestampEmptied := none }
    else b

def resolveMax (currentLockMax : Nat) (requested : Option Nat) : Broker × Nat :=
  let cap := b.config.cap
  match requested with
  | none | some 0 => (b, Nat.max (Nat.min currentLockMax cap) 1)
  | some m =>
    if m > cap then
      ({ b with concurrencyCapClampsTotal := (b.concurrencyCapClampsTotal + 1) % 2 ^ 64 }, cap)
    else (b, m)

def scheduleDeadline (ttl : Option Duration) (lockUuid : String) (keys : List String)
    (kind : RwHoldKind) (client : ClientId) : Broker :=
  match ttl with
  | none => b
  | some ttl =>
    if ttl = 0 then b
    else
      match env.checkedAdd (env.now b.reads) ttl with
      | none => { b with reads := b.reads + 1 }
      | some deadline =>
        let seq := (b.deadlineSeq + 1) % 2 ^ 64
        { b with
          reads := b.reads + 1
          deadlineSeq := seq
          deadlines := b.deadlines.insert (deadline, seq) { lockUuid, keys, kind, client } }

/-- The entry of a key, made when it is missing. -/
def lockOrDefault (key : String) : Broker × LockState :=
  match b.locks[key]? with
  | some lock => (b, lock)
  | none =>
    let max := Nat.max (Nat.min b.config.maxLockHolders b.config.cap) 1
    let fresh := LockState.new max (env.unixMillis b.reads)
    let lock :=
      if b.fencingWatermark > fresh.fencingCounter then
        { fresh with fencingCounter := b.fencingWatermark }
      else fresh
    ({ b.setLock key lock with reads := b.reads + 1 }, lock)

/-- `given.unwrap_or_else(|| Uuid::new_v4().to_string())` -/
def unwrapOrNewV4 (given : Option String) : Broker × String :=
  match given with
  | some uuid => (b, uuid)
  | none => ({ b with reads := b.reads + 1 }, env.newV4 b.reads)

/-! ### Bookkeeping -/

/-- Change the handle of a client, when it is registered. -/
def modifyClient (client : ClientId) (f : ClientHandle → ClientHandle) : Broker :=
  match b.clients[client]? with
  | none => b
  | some handle => b.setClient client (f handle)

def trackHolder (client : ClientId) (lockUuid : String) (keys : List String) (kind : RwHoldKind) :
    Broker :=
  b.modifyClient client fun handle =>
    { handle with heldLockUuids := handle.heldLockUuids.insert lockUuid { keys, rwKind := kind } }

def trackPending (client : ClientId) (key requestUuid : String) : Broker :=
  b.modifyClient client fun handle =>
    { handle with pendingRequestUuids := handle.pendingRequestUuids ++ [(key, requestUuid)] }

def untrackPending (client : ClientId) (key requestUuid : String) : Broker :=
  b.modifyClient client fun handle =>
    { handle with
      pendingRequestUuids := handle.pendingRequestUuids.filter fun p => !(p.1 = key && p.2 = requestUuid) }

/-- `handle.held_lock_uuids.remove(lock_uuid)`, when the client is registered. -/
def untrackHolder (client : ClientId) (lockUuid : String) : Broker :=
  b.modifyClient client fun handle =>
    { handle with heldLockUuids := handle.heldLockUuids.erase lockUuid }

def send (client : ClientId) (response : Response) : Broker :=
  { b with sent := ⟨client, response, b.clients.contains client, b.locks⟩ :: b.sent }

/-- Note the tokens given out with one grant. -/
def recordGrants (gs : List Grant) : Broker :=
  { b with grants := gs.reverse ++ b.grants }

/-- Store an entry with its new holder, and observe the token. -/
def putGrant (lock : LockState) (g : Grant) : Broker :=
  ((b.setLock g.key lock).observeFencingToken g.token).recordGrants [g]

end Broker

end LiveMutex
