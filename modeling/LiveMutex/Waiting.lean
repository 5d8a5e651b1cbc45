/-
Who waits on the keys, and what an operation takes off them before anyone is
woken.
-/
import LiveMutex.Strip

namespace LiveMutex

/-- The uuid a waiter will hold its keys under, if that is settled. -/
def PendingRequest.reserved (p : PendingRequest) : Option String :=
  match p.kind with
  | .composite c => some c.compositeLockUuid
  | _ => p.grantLockUuid

theorem PendingRequest.reserved_of_single {p : PendingRequest} (hp : p.isComposite = false) :
    p.reserved = p.grantLockUuid := by
  unfold isComposite at hp
  unfold reserved
  split at hp <;> simp_all

theorem PendingRequest.reserved_of_composite {p : PendingRequest} {c : Composite} (hp : p.kind = .composite c) :
    p.reserved = some c.compositeLockUuid := by simp [reserved, hp]

namespace LockTable

/-- The request `p` is queued on `q` under the uuid `x`. -/
def Waits (t : LockTable) (q x : String) (p : PendingRequest) : Prop :=
  ∃ l, t[q]? = some l ∧ (x, p) ∈ l.queue.entries

/-- The requests that wait, with the key and the uuid they are queued under. -/
def waiters (t : LockTable) : List (String × String × PendingRequest) :=
  t.toList.flatMap fun kl => kl.2.queue.entries.map fun e => (kl.1, e.1, e.2)

variable {t : LockTable}

theorem mem_waiters {q x : String} {p : PendingRequest} : (q, x, p) ∈ t.waiters ↔ t.Waits q x p := by
  simp only [waiters, List.mem_flatMap, List.mem_map, Prod.exists, Std.ExtTreeMap.mem_toList_iff_getElem?_eq_some,
    Prod.mk.injEq, Waits]
  constructor
  · intro ⟨k, l, hl, x', p', hm, hk, hx, hp⟩
    subst hk hx hp
    exact ⟨l, hl, hm⟩
  · intro ⟨l, hl, hm⟩
    exact ⟨q, l, hl, x, p, hm, rfl, rfl, rfl⟩

theorem waits_insert {key q x : String} {l : LockState} {p : PendingRequest} :
    Waits (t.insert key l) q x p ↔ if key = q then (x, p) ∈ l.queue.entries else t.Waits q x p := by
  unfold Waits
  rw [OrdMap.get_insert]
  split <;> simp

end LockTable

/-- What `handle_unlock` takes off a key. -/
def Broker.unlockStrip (b : Broker) (client : ClientId) (keys : List String) (lockUuid : Option String)
    (force : Bool) (k : String) : Strip :=
  if (lockUuid.isSome || force) && k ∈ keys then .unlock (b.canUnlockTarget client force) lockUuid else .nothing

/-- What `drop_client` takes off a key. -/
def Broker.dropStrip (b : Broker) (client : ClientId) : String → Strip :=
  match b.clients[client]? with
  | none => fun _ => .client client
  | some handle => handle.strip

/-- What an operation takes off a key before anyone is woken. -/
def Op.strip (b : Broker) : Op → String → Strip
  | .request client (.unlock _ (some key) none lockUuid force) _ => b.unlockStrip client [key] lockUuid force
  | .request client (.unlock _ none (some keys) lockUuid force) _ => b.unlockStrip client keys lockUuid force
  | .request client (.endRead _ key) _ => .on key { reader := fun _ r => r.client = client }
  | .request client (.endWrite _ key) _ => .on key { writer := fun w => w.client = client }
  | .dropClient client => b.dropStrip client
  | _ => fun _ => .nothing

end LiveMutex
