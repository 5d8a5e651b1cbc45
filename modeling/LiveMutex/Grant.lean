/-
Queue scheduling: `try_grant_next`, `try_grant_once`, `try_grant_composite`.

The three call one another: a composite waiter that gets its key moves on to
the queue of the next one, which is tried at once. `tryGrantLoop` takes the
depth left as fuel and `tryGrantNext` starts it with one more than the keys
all waiters together still need; every grant needs one key less, so the fuel
is never used up.
-/
import LiveMutex.State

namespace LiveMutex

/-- A composite request once it got `key`, its first remaining one. -/
def Composite.advance (c : Composite) (key : String) (token : Nat) : Composite :=
  { c with
    grantedTokens := c.grantedTokens.insert key token
    grantedKeys := c.grantedKeys ++ [key]
    remainingKeys := c.remainingKeys.tail }

/-- The waiter as it goes on to its next key. -/
def PendingRequest.moved (p : PendingRequest) (c : Composite) : PendingRequest :=
  { p with grantLockUuid := none, kind := .composite c }

/-- How many keys a waiter still needs. -/
def PendingRequest.weight (p : PendingRequest) : Nat :=
  match p.kind with
  | .composite c => c.remainingKeys.length
  | _ => 1

def LockState.weight (l : LockState) : Nat := (l.queue.entries.map fun e => e.2.weight).sum

/-- How many keys all waiters together still need. -/
def Broker.weight (b : Broker) : Nat := b.locks.sumBy LockState.weight

namespace Broker

variable (env : Env) (b : Broker)

/-- The `Exclusive` arm of `try_grant_once`, past its admission test. -/
def grantExclusiveHead (key : String) (lock : LockState) (head : PendingRequest) : Broker :=
  let minted := lock.pop.nextOrForcedFencingToken head.grantFencingSeed
  let token := minted.2
  let drawn := b.unwrapOrNewV4 env head.grantLockUuid
  let lockUuid := drawn.2
  let granted := minted.1.holdExclusive lockUuid
    { client := head.client, pid := head.pid, fencingToken := token,
      keepLocksAfterDeath := head.keepLocksAfterDeath, compositeMember := false }
  let depth := granted.queue.len
  let b := drawn.1.putGrant granted ⟨key, head.client, head.requestUuid, lockUuid, lock.fencingCounter, token⟩
  let b := b.untrackPending head.client key head.requestUuid
  let b := b.trackHolder head.client lockUuid [key] .exclusive
  let b := b.scheduleDeadline env head.ttl lockUuid [key] .exclusive head.client
  b.send head.client
    (.lock head.requestUuid key true depth (some lockUuid) (some token) (some 0) none)

/-- The `Reader` arm of `try_grant_once`, past its admission test. -/
def grantReaderHead (key : String) (lock : LockState) (head : PendingRequest) : Broker :=
  let minted := lock.pop.nextOrForcedFencingToken head.grantFencingSeed
  let token := minted.2
  let drawn := b.unwrapOrNewV4 env head.grantLockUuid
  let lockUuid := drawn.2
  let granted := minted.1.holdReader lockUuid head.client token
  let readers := asU32 granted.readers.size
  let b := drawn.1.putGrant granted ⟨key, head.client, head.requestUuid, lockUuid, lock.fencingCounter, token⟩
  let b := b.untrackPending head.client key head.requestUuid
  let b := b.trackHolder head.client lockUuid [key] .read
  b.send head.client
    (.registerReadResult head.requestUuid key readers false true (some lockUuid) (some token))

/-- The `Writer` arm of `try_grant_once`, past its admission test. -/
def grantWriterHead (key : String) (lock : LockState) (head : PendingRequest) : Broker :=
  let minted := lock.pop.nextOrForcedFencingToken head.grantFencingSeed
  let token := minted.2
  let drawn := b.unwrapOrNewV4 env head.grantLockUuid
  let lockUuid := drawn.2
  let granted := minted.1.holdWriter lockUuid head.client token
  let b := drawn.1.putGrant granted ⟨key, head.client, head.requestUuid, lockUuid, lock.fencingCounter, token⟩
  let b := b.untrackPending head.client key head.requestUuid
  let b := b.trackHolder head.client lockUuid [key] .write
  b.send head.client
    (.registerWriteResult head.requestUuid key 0 true true (some lockUuid) (some token))

/-- `try_grant_composite` past its tests, up to the bookkeeping: the head gets
`key`. The token comes along. -/
def takeMember (key : String) (lock : LockState) (pop : PendingRequest) (c : Composite) : Broker × Nat :=
  let tokenOffset := (c.allKeys.findIdx? (· = key)).getD 0
  let minted := lock.pop.nextOrForcedFencingToken
    (pop.grantFencingSeed.map fun seed => saturatingAdd seed tokenOffset)
  let token := minted.2
  let granted := minted.1.holdExclusive c.compositeLockUuid
    { client := pop.client, pid := pop.pid, fencingToken := token,
      keepLocksAfterDeath := false, compositeMember := true }
  let b := b.putGrant granted ⟨key, pop.client, pop.requestUuid, c.compositeLockUuid, lock.fencingCounter, token⟩
  let b := b.untrackPending pop.client key pop.requestUuid
  (b.trackHolder pop.client c.compositeLockUuid c.allKeys .exclusive, token)

/-- The rest up to the recursive call: the head is answered when `key` was
its last one, else it is queued on the next, which is returned. -/
def grantMemberHead (key : String) (lock : LockState) (pop : PendingRequest) (c : Composite) :
    Broker × Option String :=
  let taken := b.takeMember key lock pop c
  let b := taken.1
  let c := c.advance key taken.2
  match c.remainingKeys with
  | [] =>
    let b := b.scheduleDeadline env pop.ttl c.compositeLockUuid c.allKeys .exclusive pop.client
    (b.send pop.client
      (.compositeLock pop.requestUuid c.allKeys true (some c.compositeLockUuid) (some c.grantedTokens) none),
      none)
  | nextKey :: _ =>
    let entry := b.lockOrDefault env nextKey
    let b := entry.1.setLock nextKey (entry.2.push (pop.moved c))
    (b.trackPending pop.client nextKey pop.requestUuid, some nextKey)

/-- `next` is `try_grant_next`, for the key the head moves on to. -/
def tryGrantComposite (next : Broker → String → Broker) (key : String) : Broker × Bool :=
  match b.locks[key]? with
  | none => (b, false)
  | some lock =>
    match lock.queue.front with
    | none => (b, false)
    | some (_, head) =>
      match head.kind with
      | .composite c =>
        match c.remainingKeys.head? with
        | none => (b, false)
        | some target =>
          if target ≠ key then (b, false)
          else if !(lock.writer.isNone && lock.readers.isEmpty && lock.exclusiveHolders.isEmpty) then
            (b, false)
          else
            let granted := b.grantMemberHead env key lock head c
            match granted.2 with
            | none => (granted.1, true)
            | some nextKey => (next granted.1 nextKey, true)
      | _ => (b, false)

def tryGrantOnce (next : Broker → String → Broker) (key : String) : Broker × Bool :=
  match b.locks[key]? with
  | none => (b, false)
  | some lock =>
    match lock.queue.front with
    | none => (b, false)
    | some (_, head) =>
      match head.kind with
      | .exclusive =>
        if !(lock.writer.isNone && lock.readers.isEmpty && asU32 lock.exclusiveHolders.size < lock.max) then
          (b, false)
        else (b.grantExclusiveHead env key lock head, true)
      | .reader =>
        if lock.writer.isSome || !lock.exclusiveHolders.isEmpty then (b, false)
        else (b.grantReaderHead env key lock head, true)
      | .writer =>
        if lock.writer.isSome || !lock.readers.isEmpty || !lock.exclusiveHolders.isEmpty then (b, false)
        else (b.grantWriterHead env key lock head, true)
      | .composite _ => b.tryGrantComposite env next key

end Broker

/-- The loop of `try_grant_next` and the calls below it, with the depth left. -/
def Broker.tryGrantLoop (env : Env) : Nat → Broker → String → Broker
  | 0, b, _ => b
  | fuel + 1, b, key =>
    let tried := b.tryGrantOnce env (Broker.tryGrantLoop env fuel) key
    if tried.2 then Broker.tryGrantLoop env fuel tried.1 key
    else tried.1.maybeMarkIdle env key

def Broker.tryGrantNext (env : Env) (b : Broker) (key : String) : Broker :=
  Broker.tryGrantLoop env (b.weight + 1) b key

/-- `for key in keys { self.try_grant_next(state, key) }` -/
def Broker.tryGrantAll (env : Env) (b : Broker) (keys : List String) : Broker :=
  keys.foldl (fun b key => b.tryGrantNext env key) b

end LiveMutex
