/-
What an operation may do to the lock table, with the test of the source each
branch stands under, on the state before the operation: when a request is granted
on arrival, what `max` a lock request gives its key, where a request is queued.
`Op.Allows` is the same without the tests.
-/
import LiveMutex.Run

namespace LiveMutex

namespace Action

/-- A lock request of one key: it sets the key's `max`, and is granted when the
key admits it, else queued, at the front with `force`. -/
def LocksKey (b : Broker) (client : ClientId) (uuid key : String) (max : Option Nat) (force : Bool) : Action → Prop
  | .create k _ | .stamp k _ => k = key
  | .setMax k m => k = key ∧ m = b.level key max
  | .grant g terms =>
    g.key = key ∧ g.client = client ∧ g.requestUuid = uuid ∧ terms.mode = .exclusive ∧ b.admitsNow key max = true
  | .enqueue k p first =>
    k = key ∧ p.client = client ∧ p.requestUuid = uuid ∧ p.kind = .exclusive ∧ first = force ∧
      b.admitsNow key max = false
  | _ => False

/-- A register request: it is granted under the test, else queued at the back. -/
def Registers (client : ClientId) (uuid key : String) (mode : Mode) (test : Bool) : Action → Prop
  | .create k _ | .stamp k _ => k = key
  | .grant g terms => g.key = key ∧ g.client = client ∧ g.requestUuid = uuid ∧ terms.mode = mode ∧ test = true
  | .enqueue k p first =>
    k = key ∧ p.client = client ∧ p.requestUuid = uuid ∧ p.isComposite = false ∧ first = false
  | _ => False

/-- A lock request of several keys: all are free and it is granted, or it is
queued on the first, which is then tried. -/
def LocksKeys (b : Broker) (client : ClientId) (uuid : String) (overrides : GrantOverrides) (keys : List String)
    (a : Action) : Prop :=
  (∀ k ∈ keys, b.isFree k = true) ∧ a.GrantsNow client uuid overrides keys ∨
  a.QueuesNow client uuid overrides keys ∨ a.Cascade

end Action

/-- What a request may do, with the test for it. -/
def Request.Acts (b : Broker) (client : ClientId) (overrides : GrantOverrides) : Request → Action → Prop
  | .lock uuid (some key) none _ _ max force .. => Action.LocksKey b client uuid key max force
  | .lock uuid none (some keys) .. => Action.LocksKeys b client uuid overrides keys
  | .registerRead uuid key => Action.Registers client uuid key .reader (b.locks[key]?.all fun l => l.queue.isEmpty)
  | .registerWrite uuid key => Action.Registers client uuid key .writer (b.isFree key)
  | .unlock .. | .endRead .. | .endWrite .. => Broker.Wakes fun _ _ => False
  | _ => fun _ => False

/-- What each operation may do, with the test for it. -/
def Op.Acts (b : Broker) : Op → Action → Prop
  | .request client r overrides => r.Acts b client overrides
  | .dropClient client => Broker.Wakes (b.dropsWaiter client)
  | .detachLockOwner _ => Action.Detaches
  | .tickTtl _ => fun a => Broker.Wakes (fun _ _ => False) a ∨ a.Prunes
  | _ => fun _ => False

namespace Broker

variable {env : Env} {b : Broker}

theorem handleExclusiveLock_acts {client : ClientId} {uuid key : String} {pid : Option Int} {ttl : Option Duration}
    {keep force : Bool} {overrides : GrantOverrides} (max : Option Nat) (wait : Bool) :
    b.Does env overrides.lockUuid (Action.LocksKey b client uuid key max force)
      (b.handleExclusiveLock env client uuid key pid ttl max keep force wait overrides) := by
  refine handleExclusiveLock_run max wait (fun _ => rfl) ⟨rfl, rfl⟩ (fun _ => rfl) ?_ ?_
  · intro hadmits g hk hc hu
    exact ⟨hk, hc, hu, rfl, hadmits⟩
  · intro hfull _
    exact ⟨rfl, rfl, rfl, rfl, rfl, hfull⟩

theorem handleRequest_acts (client : ClientId) (request : Request) (overrides : GrantOverrides) :
    b.Does env overrides.lockUuid (request.Acts b client overrides) (b.handleRequest env client request overrides) := by
  cases request with
  | version uuid v => exact .same rfl rfl le_rfl rfl rfl
  | auth uuid t => exact .same rfl rfl le_rfl rfl rfl
  | lock uuid key keys pid ttl max force retry keep wait =>
    by_cases hmax : max = some 0
    · simp only [handleRequest, hmax, if_true]
      cases keys <;> exact .same rfl rfl le_rfl rfl rfl
    · simp only [handleRequest, hmax, if_false]
      cases key with
      | none =>
        cases keys with
        | none => exact .same rfl rfl le_rfl rfl rfl
        | some keys =>
          exact handleCompositeLock_run keys (wait.getD true) (fun hfree _ h => .inl ⟨hfree, h⟩)
            (fun _ _ h => .inr (.inl h)) fun _ _ h => .inr (.inr h)
      | some key =>
        cases keys with
        | none => exact handleExclusiveLock_acts max (wait.getD true)
        | some keys => exact .same rfl rfl le_rfl rfl rfl
  | unlock uuid key keys lockUuid force =>
    cases key <;> cases keys
    · exact .same rfl rfl le_rfl rfl rfl
    · exact handleUnlock_does client uuid _ lockUuid force
    · exact handleUnlock_does client uuid _ lockUuid force
    · exact .same rfl rfl le_rfl rfl rfl
  | registerRead uuid key =>
    refine handleRegisterRead_run (fun _ => rfl) (fun _ => rfl) ?_ ⟨rfl, rfl, rfl, rfl, rfl⟩
    intro htest g hk hc hu
    exact ⟨hk, hc, hu, rfl, htest⟩
  | registerWrite uuid key =>
    refine handleRegisterWrite_run (fun _ => rfl) (fun _ => rfl) ?_ ⟨rfl, rfl, rfl, rfl, rfl⟩
    intro htest g hk hc hu
    exact ⟨hk, hc, hu, rfl, htest⟩
  | endRead uuid key => exact handleEndRead_does client uuid key
  | endWrite uuid key => exact handleEndWrite_does client uuid key
  | lockInfo uuid key =>
    unfold handleRequest
    dsimp only
    split <;> exact .same rfl rfl (Nat.le_succ _) rfl rfl
  | ls uuid => exact .same rfl rfl (Nat.le_succ _) rfl rfl
  | heartbeat uuid => exact .same rfl rfl le_rfl rfl rfl

/-- Every operation is a run of the lock table machine, under the source's tests. -/
theorem apply_acts (op : Op) : b.Does env op.given (op.Acts b) (b.apply env op) := by
  cases op with
  | registerClient => exact registerClientWithId_does _
  | registerClientWithId id => exact registerClientWithId_does id
  | request client request overrides => exact handleRequest_acts client request overrides
  | dropClient client => exact dropClient_does client
  | detachLockFromClient client u => exact detachLockFromClient_does client u
  | detachLockOwner u => exact detachLockOwner_does u
  | tickTtl now =>
    exact ((tickTtl_wake_does now).mono fun _ h => .inl h).trans ((prune_does now).mono fun _ h => .inr h)

end Broker

end LiveMutex
