/-
The ledger: what a broker's state says about its requests and holds, without
stamps, counters and levels. A queue per key, a stake per key, kind and lock uuid,
the handle of every client, the deadlines, and what has been granted and told.

The moves here are the broker's, in the ledger's own terms: a request is awarded
its keys or queued, the head of a queue is handed a key, a composite goes on to its
next one, stakes are cut, a client leaves, a deadline passes, a lock loses its
owner. `LiveMutex.LedgerRefine` shows that every operation of the broker is such a
turn.
-/
import Mathlib.Logic.Relation
import LiveMutex.Apply
import LiveMutex.Waiting

namespace LiveMutex

/-- Whose a hold is, whether it outlives its owner, and its fencing token. -/
structure Stake where
  client : ClientId
  kept : Bool
  token : Nat
  deriving DecidableEq, Repr

/-- An answer that awards a client a lock, and the stakes when it was sent. -/
structure Notice where
  client : ClientId
  response : Response
  stake : String → RwHoldKind → String → Option Stake

/-- What has been granted and told, newest first. -/
structure Past where
  notices : List Notice
  /-- a key, the uuid it was granted under, and the token -/
  minted : List (String × String × Nat)

@[ext] structure Ledger where
  queue : String → List (String × PendingRequest)
  stake : String → RwHoldKind → String → Option Stake
  handle : ClientId → Option ClientHandle
  due : DeadlineKey → Option DeadlineEntry
  past : Past
  /-- how often the surroundings have been asked -/
  reads : Nat

/-- What a release takes away. -/
structure Cut where
  waiter : String → String → PendingRequest → Bool := fun _ _ _ => false
  stake : String → RwHoldKind → String → Stake → Bool := fun _ _ _ _ => false

/-- The keys and the kind of the lock a waiter on this key is to get. -/
def PendingRequest.wants (p : PendingRequest) (key : String) : KeysOfLock :=
  match p.kind with
  | .exclusive => ⟨[key], .exclusive⟩
  | .reader => ⟨[key], .read⟩
  | .writer => ⟨[key], .write⟩
  | .composite c => ⟨c.allKeys, .exclusive⟩

/-- The handle once its request queued on `key` under `x` was granted. -/
def ClientHandle.grant (handle : ClientHandle) (key x u : String) (lock : KeysOfLock) : ClientHandle where
  heldLockUuids := handle.heldLockUuids.insert u lock
  pendingRequestUuids := handle.pendingRequestUuids.filter fun p => !(p.1 = key && p.2 = x)

/-- Only a plain exclusive hold outlives its client. -/
def PendingRequest.keeps (p : PendingRequest) : Bool :=
  match p.kind with
  | .exclusive => p.keepLocksAfterDeath
  | _ => false

/-- The tokens a waiter has collected so far. -/
def PendingRequest.collected (p : PendingRequest) (k : String) : Option Nat :=
  match p.kind with
  | .composite c => c.grantedTokens[k]?
  | _ => none

/-- The request a response tells that it has its lock. -/
def Response.awarded : Response → Option String
  | .lock uuid _ true .. => some uuid
  | .compositeLock uuid _ true .. => some uuid
  | .registerReadResult uuid _ _ _ true .. => some uuid
  | .registerWriteResult uuid _ _ _ true .. => some uuid
  | _ => none

/-- What a response awards: the lock, its uuid, and the token of each key. -/
structure Award where
  lock : KeysOfLock
  lockUuid : String
  token : String → Option Nat

def Response.award : Response → Option Award
  | .lock _ key true _ (some u) (some t) _ _ => some ⟨⟨[key], .exclusive⟩, u, fun k => if key = k then some t else none⟩
  | .registerReadResult _ key _ _ true (some u) (some t) =>
    some ⟨⟨[key], .read⟩, u, fun k => if key = k then some t else none⟩
  | .registerWriteResult _ key _ _ true (some u) (some t) =>
    some ⟨⟨[key], .write⟩, u, fun k => if key = k then some t else none⟩
  | .compositeLock _ keys true (some u) (some tokens) _ => some ⟨⟨keys, .exclusive⟩, u, fun k => tokens[k]?⟩
  | _ => none

/-- The response tells the request `x` that it has this lock. -/
structure Response.Awards (a : Response) (x : String) (lock : KeysOfLock) (u : String) (token : String → Option Nat) :
    Prop where
  awarded : a.awarded = some x
  award : a.award = some ⟨lock, u, token⟩

/-- The request is given its lock or queued: it is well formed, and may wait. -/
def Request.joins : Request → Bool
  | .lock _ (some _) none _ _ max _ _ _ wait => max ≠ some 0 && wait.getD true
  | .lock _ none (some keys) _ _ max _ _ _ wait =>
    max ≠ some 0 && wait.getD true && !keys.isEmpty && keys.length ≤ maxCompositeKeys
  | .registerRead .. | .registerWrite .. => true
  | _ => false

/-- The operation is a request that is given its lock or queued. -/
def Op.joins : Op → Bool
  | .request _ r _ => r.joins
  | _ => false

/-- The uuid is prescribed, or drawn between the two readings. -/
def Env.Gives (env : Env) (given : Option String) (lo hi : Nat) (u : String) : Prop :=
  given = some u ∨ given = none ∧ env.Drew lo hi u

/-- A deadline of the lock `u`: one for exclusive holds, that lies after a reading of the clock between the two, and
whose sequence number is a `u64`. -/
structure Env.Dates (env : Env) (lo hi : Nat) (u : String) (lock : KeysOfLock) (client : ClientId)
    (d : DeadlineKey × DeadlineEntry) : Prop where
  entry : d.2 = ⟨u, lock.keys, lock.rwKind, client⟩
  exclusive : lock.rwKind = .exclusive
  seq : d.1.2 ≤ u64Max
  later : ∃ n, lo ≤ n ∧ n < hi ∧ env.now n < d.1.1

namespace Ledger

variable (v : Ledger)

/-- The uuids of the requests that were answered with their lock, newest first. -/
def told : List String := v.past.notices.filterMap fun n => n.response.awarded

/-! ## Small moves -/

/-- The surroundings were asked. -/
def asked (n : Nat) : Ledger := { v with reads := n }

/-- The handle of a client changes, if it has one. -/
def note (c : ClientId) (f : ClientHandle → ClientHandle) : Ledger :=
  { v with handle := fun a => if c = a then (v.handle a).map f else v.handle a }

/-- Every one of the keys is granted under `u`. -/
def give (keys : List String) (kind : RwHoldKind) (u : String) (s : String → Stake) : Ledger :=
  { v with
    stake := fun k kd w => if k ∈ keys ∧ kind = kd ∧ u = w then some (s k) else v.stake k kd w
    past := { v.past with minted := (keys.map fun k => (k, u, (s k).token)).reverse ++ v.past.minted } }

/-- The head of a queue leaves it. -/
def pop (key : String) : Ledger :=
  { v with queue := fun k => if key = k then (v.queue k).tail else v.queue k }

/-- A request joins a queue, unless one of its uuid is there. -/
def push (key : String) (p : PendingRequest) (first : Bool) : Ledger :=
  { v with queue := fun k =>
      if key = k ∧ p.requestUuid ∉ (v.queue k).map Prod.fst then
        if first then (p.requestUuid, p) :: v.queue k else v.queue k ++ [(p.requestUuid, p)]
      else v.queue k }

/-- A request is told it has its lock. -/
def tell (c : ClientId) (a : Response) : Ledger :=
  { v with past := { v.past with notices := ⟨c, a, v.stake⟩ :: v.past.notices } }

def schedule (d : Option (DeadlineKey × DeadlineEntry)) : Ledger :=
  { v with due := fun dk => (d.filter fun e => e.1 = dk).elim (v.due dk) fun e => some e.2 }

/-- A deadline is struck off. -/
def strike (dk : DeadlineKey) : Ledger := { v with due := fun a => if dk = a then none else v.due a }

def cut (c : Cut) : Ledger :=
  { v with
    queue := fun k => (v.queue k).filter fun e => !c.waiter k e.1 e.2
    stake := fun k kind u => (v.stake k kind u).filter fun s => !c.stake k kind u s }

/-- The client's handle is thrown away. -/
def expel (c : ClientId) : Ledger := { v with handle := fun a => if c = a then none else v.handle a }

/-! ## Moves -/

/-- A client's handle starts with nothing on it. -/
def register (c : ClientId) : Ledger :=
  { v with handle := fun a => if c = a then some ⟨∅, []⟩ else v.handle a }

/-- A lock is granted on arrival. -/
def award (lock : KeysOfLock) (u : String) (client : ClientId) (kept : Bool) (token : String → Nat) (a : Response)
    (d : Option (DeadlineKey × DeadlineEntry)) : Ledger :=
  (((v.give lock.keys lock.rwKind u fun k => ⟨client, kept, token k⟩).note client fun h =>
    { h with heldLockUuids := h.heldLockUuids.insert u lock }).schedule d).tell client a

/-- A request is queued. -/
def enqueue (key : String) (p : PendingRequest) (first : Bool) : Ledger :=
  (v.push key p first).note p.client fun h =>
    { h with pendingRequestUuids := h.pendingRequestUuids ++ [(key, p.requestUuid)] }

/-- The head of the queue gets the key. -/
def hand (key : String) (p : PendingRequest) (u : String) (token : Nat) : Ledger :=
  ((v.pop key).give [key] (p.wants key).rwKind u fun _ => ⟨p.client, p.keeps, token⟩).note p.client fun h =>
    h.grant key p.requestUuid u (p.wants key)

/-- The head of the queue gets the key, and with it its lock. -/
def serve (key : String) (p : PendingRequest) (u : String) (token : Nat) (a : Response)
    (d : Option (DeadlineKey × DeadlineEntry)) : Ledger :=
  ((v.hand key p u token).schedule d).tell p.client a

/-- A composite gets the key and goes on to the next. -/
def advance (key next : String) (p : PendingRequest) (c : Composite) (token : Nat) : Ledger :=
  (v.hand key p c.compositeLockUuid token).enqueue next (p.moved (c.advance key token)) false

end Ledger

/-! ## Cuts -/

/-- A client that is not registered goes. -/
def Cut.client (c : ClientId) : Cut where
  waiter _ _ p := p.client = c
  stake _ _ _ s := s.client = c

/-- A registered client goes: what its handle notes, except what is kept. -/
def ClientHandle.cut (h : ClientHandle) : Cut where
  waiter k x _ := (k, x) ∈ h.pendingRequestUuids
  stake k kind u s := (h.heldLockUuids[u]?.any fun ko => ko.rwKind = kind ∧ k ∈ ko.keys) && !s.kept

/-- A deadline passes. -/
def DeadlineEntry.cut (e : DeadlineEntry) : Cut where
  stake k kind u _ := k ∈ e.keys ∧ kind = e.kind ∧ u = e.lockUuid

namespace Ledger

variable (v : Ledger)

/-- What an unlock takes: under the target uuid what the client may unlock, or everything. -/
def unlockCut (client : ClientId) (keys : List String) (target : Option String) (force : Bool) : Cut where
  stake k _ u s :=
    k ∈ keys && match target with
      | some t => u = t && (force || s.client = client || (v.handle s.client).isNone)
      | none => force

/-- What a request takes away. -/
def requestCut (client : ClientId) : Request → Cut
  | .unlock _ (some key) none target force => v.unlockCut client [key] target force
  | .unlock _ none (some keys) target force => v.unlockCut client keys target force
  | .endRead _ key => { stake := fun k kind _ s => k = key ∧ kind = .read ∧ s.client = client }
  | .endWrite _ key => { stake := fun k kind _ s => k = key ∧ kind = .write ∧ s.client = client }
  | _ => {}

/-- Handles forget no lock but one of which their client lost a stake. -/
def Forgets (c : Cut) (hs : ClientId → Option ClientHandle) : Prop :=
  ∀ a, v.handle a = none ∧ hs a = none ∨
    ∃ h held, v.handle a = some h ∧ hs a = some { h with heldLockUuids := held } ∧
      ∀ u : String, held[u]? = h.heldLockUuids[u]? ∨
        held[u]? = none ∧ ∃ k kind s, v.stake k kind u = some s ∧ s.client = a ∧ c.stake k kind u s = true

/-- Stakes are cut, and the handles forget them. -/
def Released (c : Cut) (v' : Ledger) : Prop := ∃ hs, v.Forgets c hs ∧ v' = { v.cut c with handle := hs }

/-- The client goes. -/
def drop (c : ClientId) : Ledger :=
  match v.handle c with
  | none => v.cut (.client c)
  | some h => (v.expel c).cut h.cut

/-- A deadline up to `now` is struck off; if the lock is still held, it is taken. -/
inductive Expires (now : Instant) (v v' : Ledger) : Prop
  | stale {dk : DeadlineKey} {e : DeadlineEntry} (hd : v.due dk = some e) (hnow : dk.1 ≤ now) (h : v' = v.strike dk)
  | evict {dk : DeadlineKey} {e : DeadlineEntry} (hd : v.due dk = some e) (hnow : dk.1 ≤ now)
      (h : v' = ((v.strike dk).cut e.cut).note e.client fun h =>
        { h with heldLockUuids := h.heldLockUuids.erase e.lockUuid })

/-- The holds under `u` lose their owner, whose handle forgets them and goes when nothing is left on it. -/
structure Detached (u : String) (v' : Ledger) : Prop where
  queue : v'.queue = v.queue
  stake : ∀ k kind w, v'.stake k kind w =
    if u = w then (v.stake k kind w).map fun s => { s with client := snapshotDetachedClient } else v.stake k kind w
  handle : ∀ a, v'.handle a = v.handle a ∨
    (∃ k kind s, v.stake k kind u = some s ∧ s.client = a) ∧ ∃ h, v.handle a = some h ∧
      (v'.handle a = some { h with heldLockUuids := h.heldLockUuids.erase u } ∨
        v'.handle a = none ∧ h.pendingRequestUuids = [])
  owners : ∀ a k kind s, v.stake k kind u = some s → s.client = a → a ≠ snapshotDetachedClient →
    ∀ h', v'.handle a = some h' → h'.heldLockUuids[u]? = none
  due : v'.due = v.due
  past : v'.past = v.past
  reads : v'.reads = v.reads

end Ledger

/-! ## Turns -/

namespace Ledger

/-- What happens while waiters are granted. -/
inductive Grants (env : Env) (v v' : Ledger) : Prop
  /-- nothing but readings of the surroundings -/
  | idle {n : Nat} (hn : v.reads ≤ n) (h : v' = v.asked n)
  /-- a waiter gets its only or last key -/
  | serve (token : Nat) {key u : String} {p : PendingRequest} {rest : List (String × PendingRequest)} {n : Nat}
      {a : Response} {d : Option (DeadlineKey × DeadlineEntry)} (hq : v.queue key = (p.requestUuid, p) :: rest)
      (hlast : ∀ c, p.kind = .composite c → c.allKeys = c.grantedKeys ++ [key])
      (hu : env.Gives p.reserved v.reads n u) (hn : v.reads ≤ n)
      (ha : a.Awards p.requestUuid (p.wants key) u fun k => if key = k then some token else p.collected k)
      (hd : ∀ e ∈ d, env.Dates v.reads n u (p.wants key) p.client e ∧ p.ttl.isSome)
      (h : v' = (v.serve key p u token a d).asked n)
  /-- a composite gets a key and goes on -/
  | advance (token n : Nat) {key next : String} {p : PendingRequest} {rest : List (String × PendingRequest)}
      {c : Composite} {more : List String} (hq : v.queue key = (p.requestUuid, p) :: rest)
      (hp : p.kind = .composite c) (hr : c.allKeys = c.grantedKeys ++ key :: next :: more) (hn : v.reads ≤ n)
      (h : v' = (v.advance key next p c token).asked n)

/-- The cascade after an operation. -/
def Cascade (env : Env) : Ledger → Ledger → Prop := Relation.ReflTransGen (Grants env)

/-- How a request comes in: not at all, with its lock, or to a queue. -/
inductive Enters (env : Env) (v : Ledger) : Op → Ledger → Prop
  | still {op : Op} (hj : op.joins = false) : Enters env v op v
  | award (lock : KeysOfLock) (kept : Bool) (token : String → Nat) {client : ClientId} {r : Request}
      {overrides : GrantOverrides} {u : String} {a : Response} {d : Option (DeadlineKey × DeadlineEntry)} {n : Nat}
      (hr : requestCanGrant r = true) (hu : env.Gives overrides.lockUuid v.reads n u) (hn : v.reads ≤ n)
      (ha : a.Awards r.uuid lock u fun k => if k ∈ lock.keys then some (token k) else none)
      (hd : ∀ e ∈ d, env.Dates v.reads n u lock client e) :
      Enters env v (.request client r overrides) ((v.award lock u client kept token a d).asked n)
  | enqueue {client : ClientId} {r : Request} {overrides : GrantOverrides} {key : String} {p : PendingRequest}
      {first : Bool} {n : Nat} (hj : r.joins = true) (hp : p.Starts key) (hc : p.client = client)
      (hx : p.requestUuid = r.uuid) (hu : ∀ u, p.reserved = some u → env.Gives overrides.lockUuid v.reads n u)
      (hn : v.reads ≤ n) : Enters env v (.request client r overrides) ((v.enqueue key p first).asked n)

end Ledger

/-- What is on a key for a hold of this kind and uuid. -/
def LockState.stake (l : LockState) (kind : RwHoldKind) (u : String) : Option Stake :=
  match kind with
  | .exclusive => l.exclusiveHolders[u]?.map fun h => ⟨h.client, h.kept, h.fencingToken⟩
  | .read => l.readers[u]?.map fun h => ⟨h.client, false, h.fencingToken⟩
  | .write => (l.writer.filter fun w => w.lockUuid = u).map fun w => ⟨w.client, false, w.fencingToken⟩

namespace LockTable

def queueAt (t : LockTable) (k : String) : List (String × PendingRequest) := t[k]?.elim [] fun l => l.queue.entries

def stakeAt (t : LockTable) (k : String) (kind : RwHoldKind) (u : String) : Option Stake :=
  t[k]?.bind fun l => l.stake kind u

end LockTable

/-- The notice a message is, if it awards a lock. -/
def Sent.notice (s : Sent) : Option Notice :=
  s.response.awarded.map fun _ => ⟨s.client, s.response, s.locks.stakeAt⟩

namespace Broker

def past (b : Broker) : Past where
  notices := b.sent.filterMap Sent.notice
  minted := b.grants.map fun g => (g.key, g.lockUuid, g.token)

/-- The ledger of a broker's state. -/
def ledger (b : Broker) : Ledger where
  queue := b.locks.queueAt
  stake := b.locks.stakeAt
  handle c := b.clients[c]?
  due dk := b.deadlines[dk]?
  past := b.past
  reads := b.reads

/-- What an operation does before a request comes in and waiters are granted. -/
def Opens (b : Broker) (op : Op) (v : Ledger) : Prop :=
  match op with
  | .registerClient => v = b.ledger.register (b.nextAvailableClientId b.nextClientId)
  | .registerClientWithId id => v = b.ledger.register (b.nextAvailableClientId id)
  | .request client r _ => b.ledger.Released (b.ledger.requestCut client r) v
  | .dropClient client => v = b.ledger.drop client
  | .detachLockFromClient client u =>
    v = b.ledger.note client fun h => { h with heldLockUuids := h.heldLockUuids.erase u }
  | .detachLockOwner u => b.ledger.Detached u v
  | .tickTtl now => Relation.ReflTransGen (Ledger.Expires now) b.ledger v

/-- One operation, on the ledger. -/
def Turns (env : Env) (b : Broker) (op : Op) (v : Ledger) : Prop :=
  ∃ v₁ v₂, b.Opens op v₁ ∧ v₁.Enters env op v₂ ∧ v₂.Cascade env v

end Broker

end LiveMutex
