/-
The lock table as a state machine: what can happen to it, one small step at a
time, each with the test under which it may happen. It leaves out who asks and
what is answered. Every operation of the broker is a run of these steps
(`LiveMutex.Refine`), so a fact about all runs of the machine is a fact about
the broker's table.
-/
import LiveMutex.Lib.Trace
import LiveMutex.StateFacts

namespace LiveMutex

/-- The ways to hold a key; `member` is an exclusive hold as part of a
composite lock. -/
inductive Mode where
  | exclusive
  | member
  | reader
  | writer
  deriving DecidableEq, Repr

/-- What a grant hands over besides the uuid and the token. -/
structure Terms where
  mode : Mode
  pid : Option Int := none
  keepLocksAfterDeath : Bool := false
  /-- the fencing token a replicated log prescribes -/
  forced : Option Nat := none

/-- The `max` of a new entry. -/
def BrokerConfig.defaultMax (c : BrokerConfig) : Nat := Nat.max (Nat.min c.maxLockHolders c.cap) 1

namespace LockState

/-- Nobody holds the key. -/
def vacant (l : LockState) : Bool := l.writer.isNone && l.readers.isEmpty && l.exclusiveHolders.isEmpty

/-- Whether a hold of this mode can be added to those there are. -/
def admits (l : LockState) : Mode → Bool
  | .exclusive => l.writer.isNone && l.readers.isEmpty && asU32 l.exclusiveHolders.size < l.max
  | .reader => l.writer.isNone && l.exclusiveHolders.isEmpty
  | .member | .writer => l.vacant

/-- The key with one more hold on it. -/
def take (l : LockState) (terms : Terms) (g : Grant) : LockState :=
  let minted := (l.nextOrForcedFencingToken terms.forced).1
  match terms.mode with
  | .exclusive =>
    minted.holdExclusive g.lockUuid
      { client := g.client, pid := terms.pid, fencingToken := g.token,
        keepLocksAfterDeath := terms.keepLocksAfterDeath, compositeMember := false }
  | .member =>
    minted.holdExclusive g.lockUuid
      { client := g.client, pid := terms.pid, fencingToken := g.token,
        keepLocksAfterDeath := terms.keepLocksAfterDeath, compositeMember := true }
  | .reader => minted.holdReader g.lockUuid g.client g.token
  | .writer => minted.holdWriter g.lockUuid g.client g.token

/-- What minting a token does not change. -/
theorem nextOrForcedFencingToken_eq (l : LockState) (forced : Option Nat) :
    (l.nextOrForcedFencingToken forced).1 =
      { l with fencingCounter := (l.nextOrForcedFencingToken forced).1.fencingCounter } := by
  cases forced <;> rfl

@[simp] theorem take_queue (l : LockState) (terms : Terms) (g : Grant) : (l.take terms g).queue = l.queue := by
  unfold take
  dsimp only
  rw [nextOrForcedFencingToken_eq]
  split <;> rfl

@[simp] theorem removeForKind_queue (l : LockState) (u : String) (kind : RwHoldKind) :
    (l.removeForKind u kind).queue = l.queue := by
  cases kind with
  | exclusive => rfl
  | read => rfl
  | write =>
    unfold removeForKind
    dsimp only
    split <;> rfl

/-- The token of a grant is the one this key hands out. -/
structure Mints (l : LockState) (terms : Terms) (g : Grant) : Prop where
  counter : g.counter = l.fencingCounter
  token : g.token = (l.nextOrForcedFencingToken terms.forced).2

/-- An entry just made: nobody on it, its counter at or above `floor`. -/
structure Fresh (cfg : BrokerConfig) (floor : Nat) (l : LockState) : Prop where
  exclusiveHolders : l.exclusiveHolders = ∅
  readers : l.readers = ∅
  writer : l.writer = none
  queue : l.queue = .empty
  timestampEmptied : l.timestampEmptied = none
  one_le_max : 1 ≤ l.max
  max_le : l.max ≤ cfg.cap
  max_eq : l.max = cfg.defaultMax
  floor_le : floor ≤ l.fencingCounter

end LockState

namespace PendingRequest

/-- The terms on which a waiter gets `key`. -/
def terms (p : PendingRequest) (key : String) : Terms :=
  match p.kind with
  | .exclusive =>
    { mode := .exclusive, pid := p.pid, keepLocksAfterDeath := p.keepLocksAfterDeath,
      forced := p.grantFencingSeed }
  | .reader => { mode := .reader, forced := p.grantFencingSeed }
  | .writer => { mode := .writer, forced := p.grantFencingSeed }
  | .composite c =>
    { mode := .member, pid := p.pid
      forced := p.grantFencingSeed.map fun seed =>
        saturatingAdd seed ((c.allKeys.findIdx? (· = key)).getD 0) }

def isComposite (p : PendingRequest) : Bool :=
  match p.kind with
  | .composite _ => true
  | _ => false

/-- A waiter as it is first queued on `key`: a composite one has its keys
sorted, none granted, and stands on its first. -/
def Starts (p : PendingRequest) (key : String) : Prop :=
  ∀ c, p.kind = .composite c → c.allKeys.Pairwise (· < ·) ∧ c.allKeys.length ≤ maxCompositeKeys ∧
    c.allKeys.head? = some key ∧ c.remainingKeys = c.allKeys ∧ c.grantedKeys = [] ∧ c.grantedTokens = ∅

end PendingRequest

/-- What can happen to the lock table. -/
inductive Action where
  | create (key : String) (l : LockState)
  | setMax (key : String) (max : Nat)
  | stamp (key : String) (at_ : Option Instant)
  /-- a request is granted on arrival -/
  | grant (g : Grant) (terms : Terms)
  /-- the head of a queue, not a composite, is granted -/
  | grantHead (g : Grant) (p : PendingRequest)
  /-- a composite at the head of a queue gets its last key -/
  | finish (g : Grant) (p : PendingRequest) (c : Composite)
  /-- a composite at the head of a queue gets a key and goes to the next -/
  | advance (g : Grant) (p : PendingRequest) (c : Composite) (next : String)
  | enqueue (key : String) (p : PendingRequest) (first : Bool)
  | withdraw (key requestUuid : String)
  | release (key lockUuid : String) (kind : RwHoldKind)
  | wipe (key : String)
  | detach (lockUuid : String)
  | prune (key : String)

/-- The tokens an action gives out. -/
def Action.grants : Action → List Grant
  | .grant g _ | .grantHead g _ | .finish g _ _ | .advance g _ _ _ => [g]
  | _ => []

/-- A grant to this waiter, on this key. -/
structure Grant.For (g : Grant) (p : PendingRequest) (l : LockState) : Prop where
  client : g.client = p.client
  requestUuid : g.requestUuid = p.requestUuid
  front : ∃ x, l.queue.front = some (x, p)
  admits : l.admits (p.terms g.key).mode = true
  mints : l.Mints (p.terms g.key) g

/-- The entry of a key, made when it is missing. -/
def LockTable.Entry (cfg : BrokerConfig) (floor : Nat) (t : LockTable) (key : String) (l : LockState) : Prop :=
  t[key]? = some l ∨ t[key]? = none ∧ l.Fresh cfg floor

/-- The steps of the machine. `floor` is a token no new entry may start below. -/
inductive Step (cfg : BrokerConfig) (floor : Nat) : LockTable → Action → LockTable → Prop
  | create {t : LockTable} {key : String} {l : LockState} (h : t[key]? = none) (hl : l.Fresh cfg floor) :
      Step cfg floor t (.create key l) (t.insert key l)
  | setMax {t : LockTable} {key : String} {l : LockState} {max : Nat} (h : t[key]? = some l)
      (h1 : 1 ≤ max) (hm : max ≤ cfg.cap) :
      Step cfg floor t (.setMax key max) (t.insert key { l with max })
  | stamp {t : LockTable} {key : String} {l : LockState} {at_ : Option Instant} (h : t[key]? = some l)
      (hs : at_.isSome = l.isIdle) :
      Step cfg floor t (.stamp key at_) (t.insert key { l with timestampEmptied := at_ })
  | grant {t : LockTable} {g : Grant} {terms : Terms} {l : LockState} (h : t[g.key]? = some l)
      (ha : l.admits terms.mode = true) (hm : l.Mints terms g) :
      Step cfg floor t (.grant g terms) (t.insert g.key (l.take terms g))
  | grantHead {t : LockTable} {g : Grant} {p : PendingRequest} {l : LockState} (h : t[g.key]? = some l)
      (hp : p.isComposite = false) (hg : g.For p l)
      (hu : ∀ u, p.grantLockUuid = some u → g.lockUuid = u) :
      Step cfg floor t (.grantHead g p) (t.insert g.key (l.pop.take (p.terms g.key) g))
  | finish {t : LockTable} {g : Grant} {p : PendingRequest} {c : Composite} {l : LockState}
      (h : t[g.key]? = some l) (hp : p.kind = .composite c) (hr : c.remainingKeys = [g.key])
      (hg : g.For p l) (hu : g.lockUuid = c.compositeLockUuid) :
      Step cfg floor t (.finish g p c) (t.insert g.key (l.pop.take (p.terms g.key) g))
  | advance {t : LockTable} {g : Grant} {p : PendingRequest} {c : Composite} {next : String}
      {rest : List String} {l l' : LockState} (h : t[g.key]? = some l) (hp : p.kind = .composite c)
      (hr : c.remainingKeys = g.key :: next :: rest) (hg : g.For p l)
      (hu : g.lockUuid = c.compositeLockUuid)
      (h' : LockTable.Entry cfg floor (t.insert g.key (l.pop.take (p.terms g.key) g)) next l') :
      Step cfg floor t (.advance g p c next)
        ((t.insert g.key (l.pop.take (p.terms g.key) g)).insert next
          (l'.push (p.moved (c.advance g.key g.token))))
  | enqueue {t : LockTable} {key : String} {p : PendingRequest} {l : LockState} {first : Bool}
      (h : t[key]? = some l) (hp : p.Starts key) :
      Step cfg floor t (.enqueue key p first)
        (t.insert key (if first then l.pushFirst p else l.push p))
  | withdraw {t : LockTable} {key x : String} {l : LockState} (h : t[key]? = some l) :
      Step cfg floor t (.withdraw key x) (t.insert key (l.removeWaiter x))
  | release {t : LockTable} {key u : String} {kind : RwHoldKind} {l : LockState} (h : t[key]? = some l) :
      Step cfg floor t (.release key u kind) (t.insert key (l.removeForKind u kind))
  | wipe {t : LockTable} {key : String} {l : LockState} (h : t[key]? = some l) :
      Step cfg floor t (.wipe key) (t.insert key l.wipe)
  | detach (t : LockTable) (u : String) :
      Step cfg floor t (.detach u) (t.map fun _ l => l.detachOwner u)
  | prune {t : LockTable} {key : String} {l : LockState} (h : t[key]? = some l) (hi : l.isIdle = true) :
      Step cfg floor t (.prune key) (t.erase key)

theorem Step.mono {cfg : BrokerConfig} {floor floor' : Nat} (hle : floor ≤ floor') {t t' : LockTable}
    {a : Action} (h : Step cfg floor' t a t') : Step cfg floor t a t' := by
  cases h with
  | create h hl => exact .create h { hl with floor_le := hle.trans hl.floor_le }
  | setMax h h1 hm => exact .setMax h h1 hm
  | stamp h hs => exact .stamp h hs
  | grant h ha hm => exact .grant h ha hm
  | grantHead h hp hg hu => exact .grantHead h hp hg hu
  | finish h hp hr hg hu => exact .finish h hp hr hg hu
  | advance h hp hr hg hu h' =>
    exact .advance h hp hr hg hu (h'.imp_right fun h' => ⟨h'.1, { h'.2 with floor_le := hle.trans h'.2.floor_le }⟩)
  | enqueue h hp => exact .enqueue h hp
  | withdraw h => exact .withdraw h
  | release h => exact .release h
  | wipe h => exact .wipe h
  | detach => exact .detach _ _
  | prune h hi => exact .prune h hi

end LiveMutex
