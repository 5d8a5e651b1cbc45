/-
Runs of the broker: its public operations, what each does to the lock table,
and the states a broker can be in, snapshots included. The rule of this module
(`Kept.reachable`): what every small step keeps of one key holds of every key
in every reachable state.
-/
import LiveMutex.RefineRelease
import LiveMutex.SnapshotFacts

namespace LiveMutex

/-- The public operations that change the broker's state. -/
inductive Op where
  | registerClient
  | registerClientWithId (preferredId : ClientId)
  | request (client : ClientId) (request : Request) (overrides : GrantOverrides)
  | dropClient (client : ClientId)
  | detachLockFromClient (client : ClientId) (lockUuid : String)
  | detachLockOwner (lockUuid : String)
  | tickTtl (now : Instant)
  deriving DecidableEq

def Broker.apply (env : Env) (b : Broker) : Op → Broker
  | .registerClient => b.registerClient.1
  | .registerClientWithId preferredId => (b.registerClientWithId preferredId).1
  | .request client request overrides => b.handleRequest env client request overrides
  | .dropClient client => b.dropClient env client
  | .detachLockFromClient client lockUuid => b.detachLockFromClient client lockUuid
  | .detachLockOwner lockUuid => b.detachLockOwner lockUuid
  | .tickTtl now => (b.tickTtl env now).1

/-- A sequence of operations, first one first. -/
def Broker.applyAll (env : Env) (b : Broker) (ops : List Op) : Broker := ops.foldl (·.apply env) b

/-- The lock uuid an operation's overrides prescribe. -/
def Op.given : Op → Option String
  | .request _ _ overrides => overrides.lockUuid
  | _ => none

def Request.uuid : Request → String
  | .version uuid _ | .auth uuid _ | .lock uuid .. | .unlock uuid .. | .registerRead uuid _
  | .registerWrite uuid _ | .endRead uuid _ | .endWrite uuid _ | .lockInfo uuid _ | .ls uuid
  | .heartbeat uuid => uuid

/-- The keys a lock or register request names. -/
def Request.keys : Request → List String
  | .lock _ key keys .. => key.toList ++ keys.getD []
  | .registerRead _ key | .registerWrite _ key => [key]
  | _ => []

namespace Broker

variable {env : Env} {b : Broker}

theorem handleRequest_does (client : ClientId) (request : Request) (overrides : GrantOverrides) :
    b.Does env overrides.lockUuid (fun a => a.Arrives client request.uuid overrides request.keys ∨ Wakes (fun _ _ => False) a)
      (b.handleRequest env client request overrides) := by
  cases request with
  | version uuid v => exact .same rfl rfl le_rfl rfl rfl
  | auth uuid t => exact .same rfl rfl le_rfl rfl rfl
  | lock uuid key keys pid ttl max force retry keep wait =>
    unfold handleRequest
    dsimp only
    split
    · cases keys <;> exact .same rfl rfl le_rfl rfl rfl
    · split
      · exact (handleExclusiveLock_does max (wait.getD true)).mono fun _ h => .inl h
      · exact (handleCompositeLock_does _ (wait.getD true)).mono fun _ h => h.imp_right .inr
      · exact .same rfl rfl le_rfl rfl rfl
      · exact .same rfl rfl le_rfl rfl rfl
  | unlock uuid key keys lockUuid force =>
    unfold handleRequest
    dsimp only
    split
    · exact (handleUnlock_does client uuid _ lockUuid force).mono fun _ h => .inr h
    · exact (handleUnlock_does client uuid _ lockUuid force).mono fun _ h => .inr h
    · exact .same rfl rfl le_rfl rfl rfl
    · exact .same rfl rfl le_rfl rfl rfl
  | registerRead uuid key => exact handleRegisterRead_does.mono fun _ h => .inl h
  | registerWrite uuid key => exact handleRegisterWrite_does.mono fun _ h => .inl h
  | endRead uuid key => exact (handleEndRead_does client uuid key).mono fun _ h => .inr h
  | endWrite uuid key => exact (handleEndWrite_does client uuid key).mono fun _ h => .inr h
  | lockInfo uuid key =>
    unfold handleRequest
    dsimp only
    split <;> exact .same rfl rfl (Nat.le_succ _) rfl rfl
  | ls uuid => exact .same rfl rfl (Nat.le_succ _) rfl rfl
  | heartbeat uuid => exact .same rfl rfl le_rfl rfl rfl

theorem registerClientWithId_does {given : Option String} {ok : Action → Prop} (preferredId : ClientId) :
    b.Does env given ok (b.registerClientWithId preferredId).1 :=
  .same rfl rfl le_rfl rfl rfl

theorem detachLockFromClient_does {given : Option String} {ok : Action → Prop} (client : ClientId)
    (lockUuid : String) : b.Does env given ok (b.detachLockFromClient client lockUuid) := by
  unfold detachLockFromClient untrackHolder
  rw [modifyClient_eq]
  exact .same rfl rfl le_rfl rfl rfl

end Broker

/-- What each operation may do to the table. -/
def Op.Allows : Op → Action → Prop
  | .request client r overrides, a => a.Arrives client r.uuid overrides r.keys ∨ Broker.Wakes (fun _ _ => False) a
  | .dropClient _, a => Broker.Wakes (fun _ _ => True) a
  | .detachLockOwner _, a => a.Detaches
  | .tickTtl _, a => Broker.Wakes (fun _ _ => False) a ∨ a.Prunes
  | _, _ => False

/-- Every operation is a run of the lock table machine. -/
theorem Broker.apply_does {env : Env} {b : Broker} (op : Op) :
    b.Does env op.given op.Allows (b.apply env op) := by
  cases op with
  | registerClient => exact registerClientWithId_does _
  | registerClientWithId id => exact registerClientWithId_does id
  | request client request overrides => exact handleRequest_does client request overrides
  | dropClient client =>
    refine (dropClient_does client).mono fun a h => h.imp_left fun hr => ?_
    cases a <;> first | exact trivial | exact False.elim hr
  | detachLockFromClient client u => exact detachLockFromClient_does client u
  | detachLockOwner u => exact detachLockOwner_does u
  | tickTtl now =>
    exact ((tickTtl_wake_does now).mono fun _ h => .inl h).trans ((prune_does now).mono fun _ h => .inr h)

/-! ## Facts about one key -/

/-- Something holds of every entry of the table. -/
def AllLocks (P : String → LockState → Prop) (t : LockTable) : Prop :=
  ∀ key l, t[key]? = some l → P key l

namespace AllLocks

variable {P : String → LockState → Prop} {t : LockTable}

theorem insert {key : String} {l : LockState} (h : AllLocks P t) (hl : P key l) :
    AllLocks P (t.insert key l) := by
  intro k l' hk
  rw [OrdMap.get_insert] at hk
  split at hk
  · rename_i he
    obtain rfl := Option.some.inj hk
    exact he ▸ hl
  · exact h k l' hk

theorem erase {key : String} (h : AllLocks P t) : AllLocks P (t.erase key) := by
  intro k l hk
  rw [OrdMap.get_erase] at hk
  split at hk
  · cases hk
  · exact h k l hk

theorem map {f : LockState → LockState} (h : AllLocks P t) (hf : ∀ k l, P k l → P k (f l)) :
    AllLocks P (t.map fun _ l => f l) := by
  intro k l hk
  rw [Std.ExtTreeMap.getElem?_map] at hk
  obtain ⟨l', hl', rfl⟩ := Option.map_eq_some_iff.1 hk
  exact hf k l' (h k l' hl')

end AllLocks

/-- A fact about one key that every step of the machine keeps, with the guard
each step comes with; `New` is what is known of a waiter when it is queued. -/
structure Kept (cfg : BrokerConfig) (New : PendingRequest → Prop) (P : String → LockState → Prop) : Prop where
  fresh {key : String} {l : LockState} {floor : Nat} : l.Fresh cfg floor → P key l
  setMax {key : String} {l : LockState} {max : Nat} : P key l → 1 ≤ max → max ≤ cfg.cap →
    P key { l with max }
  stamp {key : String} {l : LockState} {at_ : Option Instant} : P key l → at_.isSome = l.isIdle →
    P key { l with timestampEmptied := at_ }
  take {l : LockState} {terms : Terms} {g : Grant} : P g.key l → l.admits terms.mode = true →
    l.Mints terms g → P g.key (l.take terms g)
  pop {key : String} {l : LockState} : P key l → P key l.pop
  push {key : String} {l : LockState} {p : PendingRequest} : P key l → p.Starts key → New p →
    P key (l.push p)
  pushFirst {key : String} {l : LockState} {p : PendingRequest} : P key l → p.Starts key → New p →
    P key (l.pushFirst p)
  /-- a composite waiter arrives from the head of the queue of another key -/
  moved {key next : String} {rest : List String} {l l' : LockState} {p : PendingRequest} {c : Composite}
    {x : String} {token : Nat} : P key l → l.queue.front = some (x, p) → p.kind = .composite c →
    c.remainingKeys = key :: next :: rest → P next l' → P next (l'.push (p.moved (c.advance key token)))
  removeWaiter {key : String} {l : LockState} {x : String} : P key l → P key (l.removeWaiter x)
  removeForKind {key : String} {l : LockState} {u : String} {kind : RwHoldKind} : P key l →
    P key (l.removeForKind u kind)
  wipe {key : String} {l : LockState} : P key l → P key l.wipe
  detachOwner {key : String} {l : LockState} {u : String} : P key l → P key (l.detachOwner u)

namespace LockState

@[simp] theorem admits_pop (l : LockState) (m : Mode) : l.pop.admits m = l.admits m := by
  cases m <;> rfl

theorem Mints.pop {l : LockState} {terms : Terms} {g : Grant} (h : l.Mints terms g) : l.pop.Mints terms g :=
  ⟨h.counter, h.token.trans (l.pop_nextOrForcedFencingToken terms.forced).symm⟩

end LockState

/-- The waiters an action queues are all `New`. -/
def Action.Queues (New : PendingRequest → Prop) : Action → Prop
  | .enqueue _ p _ => New p
  | _ => True

theorem Action.queues_true (a : Action) : a.Queues fun _ => True := by
  cases a <;> exact trivial

namespace Kept

variable {cfg : BrokerConfig} {New : PendingRequest → Prop} {P : String → LockState → Prop}

/-- The head of a queue takes the key. -/
theorem takeHead (hP : Kept cfg New P) {l : LockState} {p : PendingRequest} {g : Grant} (h : P g.key l)
    (hg : g.For p l) : P g.key (l.pop.take (p.terms g.key) g) :=
  hP.take (hP.pop h) (by rw [LockState.admits_pop]; exact hg.admits) hg.mints.pop

theorem step (hP : Kept cfg New P) {floor : Nat} {t t' : LockTable} {a : Action} (h : Step cfg floor t a t')
    (hn : a.Queues New) (ht : AllLocks P t) : AllLocks P t' := by
  cases h with
  | create _ hl => exact ht.insert (hP.fresh hl)
  | setMax hk h1 hm => exact ht.insert (hP.setMax (ht _ _ hk) h1 hm)
  | stamp hk hs => exact ht.insert (hP.stamp (ht _ _ hk) hs)
  | grant hk ha hm => exact ht.insert (hP.take (ht _ _ hk) ha hm)
  | grantHead hk _ hg _ => exact ht.insert (hP.takeHead (ht _ _ hk) hg)
  | finish hk _ _ hg _ => exact ht.insert (hP.takeHead (ht _ _ hk) hg)
  | advance hk hp hr hg _ hk' =>
    obtain ⟨x, hx⟩ := hg.front
    have hfirst := ht.insert (hP.takeHead (ht _ _ hk) hg)
    exact hfirst.insert (hP.moved (ht _ _ hk) hx hp hr (hk'.elim (hfirst _ _) fun h => hP.fresh h.2))
  | enqueue hk hp =>
    refine ht.insert ?_
    split
    · exact hP.pushFirst (ht _ _ hk) hp hn
    · exact hP.push (ht _ _ hk) hp hn
  | withdraw hk => exact ht.insert (hP.removeWaiter (ht _ _ hk))
  | release hk => exact ht.insert (hP.removeForKind (ht _ _ hk))
  | wipe hk => exact ht.insert (hP.wipe (ht _ _ hk))
  | detach => exact ht.map fun _ _ => hP.detachOwner
  | prune => exact ht.erase

theorem does {env : Env} {given : Option String} {ok : Action → Prop} {b b' : Broker}
    (hP : Kept b.config New P) (h : b.Does env given ok b') (hok : ∀ a, ok a → a.Queues New)
    (hb : AllLocks P b.locks) : AllLocks P b'.locks :=
  h.inv (fun _ a _ ha hs ht => hP.step hs (hok a ha) ht) hb

theorem apply {env : Env} {b : Broker} (hP : Kept b.config New P) {op : Op}
    (hop : ∀ a, op.Allows a → a.Queues New) (h : AllLocks P b.locks) : AllLocks P (b.apply env op).locks :=
  hP.does (Broker.apply_does op) hop h

end Kept

/-! ## Reachable states -/

/-- The states of a broker: a new one, after an operation, or restored from
the snapshot of another broker of the same configuration. Every operation may
meet its own clock, uuids and hash order. -/
inductive Broker.Reachable (cfg : BrokerConfig) : Broker → Prop
  | new : Reachable cfg (Broker.new cfg)
  | apply {b : Broker} (env : Env) (op : Op) (h : Reachable cfg b) : Reachable cfg (b.apply env op)
  | install {b other b' : Broker} (env : Env) (now : Instant) (h : Reachable cfg b)
      (ho : Reachable cfg other) (hi : b.installRaftSnapshot env (other.snapshotForRaft now) = .ok b') :
      Reachable cfg b'

theorem Broker.Reachable.config {cfg : BrokerConfig} {b : Broker} (h : Reachable cfg b) : b.config = cfg := by
  induction h with
  | new => rfl
  | apply env op _ ih => exact (apply_does op).config.trans ih
  | install env now _ _ hi ih _ =>
    exact (installBrokerRaftSnapshot_locks (installRaftSnapshot_ok hi).2).2.trans ih

/-- The states of runs without snapshots in which every operation meets `Ok`,
in its surroundings and in the state it starts from. -/
inductive Broker.Runs (cfg : BrokerConfig) (Ok : Env → Broker → Op → Prop) : Broker → Prop
  | new : Runs cfg Ok (Broker.new cfg)
  | apply {b : Broker} (env : Env) (op : Op) (hok : Ok env b op) (h : Runs cfg Ok b) :
      Runs cfg Ok (b.apply env op)

namespace Broker.Runs

variable {cfg : BrokerConfig} {Ok : Env → Broker → Op → Prop}

theorem reachable {b : Broker} (h : Runs cfg Ok b) : Reachable cfg b := by
  induction h with
  | new => exact .new
  | apply env op _ _ ih => exact .apply env op ih

/-- The operations meet `Ok` one after the other. -/
def Meets (Ok : Env → Broker → Op → Prop) (env : Env) : Broker → List Op → Prop
  | _, [] => True
  | b, op :: ops => Ok env b op ∧ Meets Ok env (b.apply env op) ops

theorem applyAll (env : Env) : ∀ (ops : List Op) {b : Broker}, Runs cfg Ok b → Meets Ok env b ops →
    Runs cfg Ok (b.applyAll env ops)
  | [], _, h, _ => h
  | op :: ops, _, h, hops => applyAll env ops (h.apply env op hops.1) hops.2

end Broker.Runs

/-- The states of a broker whose operations all meet `Ok`; as in `Reachable`,
every operation may meet its own surroundings, and a snapshot of another such
broker may be installed. -/
inductive Broker.ReachableBy (cfg : BrokerConfig) (Ok : Broker → Op → Prop) : Broker → Prop
  | new : ReachableBy cfg Ok (Broker.new cfg)
  | apply {b : Broker} (env : Env) (op : Op) (hok : Ok b op) (h : ReachableBy cfg Ok b) :
      ReachableBy cfg Ok (b.apply env op)
  | install {b other b' : Broker} (env : Env) (now : Instant) (h : ReachableBy cfg Ok b)
      (ho : ReachableBy cfg Ok other) (hi : b.installRaftSnapshot env (other.snapshotForRaft now) = .ok b') :
      ReachableBy cfg Ok b'

namespace Broker.ReachableBy

variable {cfg : BrokerConfig} {Ok : Broker → Op → Prop}

theorem reachable {b : Broker} (h : ReachableBy cfg Ok b) : Reachable cfg b := by
  induction h with
  | new => exact .new
  | apply env op _ _ ih => exact .apply env op ih
  | install env now _ _ hi ih ih' => exact .install env now ih ih' hi

theorem applyAll (env : Env) : ∀ (ops : List Op) {b : Broker}, ReachableBy cfg Ok b →
    Runs.Meets (fun _ => Ok) env b ops → ReachableBy cfg Ok (b.applyAll env ops)
  | [], _, h, _ => h
  | op :: ops, _, h, hops => applyAll env ops (h.apply env op hops.1) hops.2

end Broker.ReachableBy

/-- A run of operations, each of which meets `Ok` where it starts and `Stay` where it ends. -/
inductive Broker.RunWhile (Ok : Broker → Op → Prop) (Stay : Broker → Prop) : Broker → List Op → Broker → Prop
  | nil (b : Broker) : RunWhile Ok Stay b [] b
  | cons {b b' : Broker} {ops : List Op} (env : Env) (op : Op) (hok : Ok b op) (hstay : Stay (b.apply env op))
      (h : RunWhile Ok Stay (b.apply env op) ops b') : RunWhile Ok Stay b (op :: ops) b'

/-- The states of a broker in one place: `env` is what it meets there, and it
never draws a uuid twice. Every operation meets `Ok`; a snapshot of another such
broker may be installed when the two meet `Fits`. -/
inductive Broker.RunsIn (cfg : BrokerConfig) (Ok : Env → Broker → Op → Prop)
    (Fits : Env → Broker → Broker → Prop) : Env → Broker → Prop
  | new (env : Env) (hinj : Function.Injective env.newV4) : RunsIn cfg Ok Fits env (Broker.new cfg)
  | apply {env : Env} {b : Broker} (op : Op) (hok : Ok env b op) (h : RunsIn cfg Ok Fits env b) :
      RunsIn cfg Ok Fits env (b.apply env op)
  | install {env env' : Env} {b other b' : Broker} (now : Instant) (h : RunsIn cfg Ok Fits env b)
      (ho : RunsIn cfg Ok Fits env' other) (hfits : Fits env b other)
      (hi : b.installRaftSnapshot env (other.snapshotForRaft now) = .ok b') : RunsIn cfg Ok Fits env b'

namespace Broker.RunsIn

variable {cfg : BrokerConfig} {Ok : Env → Broker → Op → Prop} {Fits : Env → Broker → Broker → Prop}

theorem reachable {env : Env} {b : Broker} (h : RunsIn cfg Ok Fits env b) : Reachable cfg b := by
  induction h with
  | new => exact .new
  | apply op _ _ ih => exact .apply _ op ih
  | install now _ _ _ hi ih ih' => exact .install _ now ih ih' hi

theorem injective {env : Env} {b : Broker} (h : RunsIn cfg Ok Fits env b) : Function.Injective env.newV4 := by
  induction h with
  | new env hinj => exact hinj
  | apply op _ _ ih => exact ih
  | install now _ _ _ _ ih _ => exact ih

theorem applyAll {env : Env} : ∀ (ops : List Op) {b : Broker}, RunsIn cfg Ok Fits env b → Runs.Meets Ok env b ops →
    RunsIn cfg Ok Fits env (b.applyAll env ops)
  | [], _, h, _ => h
  | op :: ops, _, h, hops => applyAll ops (h.apply op hops.1) hops.2

end Broker.RunsIn

/-- **What every step keeps of one key holds of every key in every reachable
state**, when a snapshot brings it back too. -/
theorem Kept.reachable {cfg : BrokerConfig} {P : String → LockState → Prop} (hP : Kept cfg (fun _ => True) P)
    (hrestore : ∀ key l now, P key l → P key ((l.snapshot key).restore cfg.cap now)) {b : Broker}
    (h : Broker.Reachable cfg b) : AllLocks P b.locks := by
  induction h with
  | new =>
    intro key l hl
    simp [Broker.new, BrokerState.new] at hl
  | apply env op hb ih =>
    exact Kept.apply (hb.config.symm ▸ hP) (fun a _ => a.queues_true) ih
  | @install b other b' env now hb _ hi _ ih =>
    intro key l hl
    rw [(Broker.installBrokerRaftSnapshot_locks (Broker.installRaftSnapshot_ok hi).2).1,
      Std.ExtTreeMap.getElem?_map] at hl
    obtain ⟨l', hl', rfl⟩ := Option.map_eq_some_iff.1 hl
    rw [hb.config]
    exact hrestore key l' _ (ih key l' hl')

end LiveMutex
