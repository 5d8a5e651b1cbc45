/-
A small process to evaluate the model in: uuids of growing length, clocks that
stand still, hash tables walked in key order; and requests with their optional
fields left out.
-/
import LiveMutex.Run

namespace LiveMutex.Sample

def env : Env where
  newV4 n := String.ofList (List.replicate (n + 1) 'u')
  now _ := 0
  unixMillis _ := 0
  order _ l := l
  instantMin := 0
  instantMax := 1000000000000000000
  newV4_ne n h := by simpa using congrArg String.length h
  unixMillis_le _ := Nat.zero_le _
  order_perm _ l := .refl l

def config : BrokerConfig where
  maxLockHolders := 1
  maxConcurrencyCap := 10
  idleKeyGrace := 0
  maxConcurrencyCap_lt := by decide

def lock (uuid key : String) : Request := .lock uuid (some key) none none none none false 0 false none

/-- A lock with room for so many holders. -/
def lockMax (uuid key : String) (max : Nat) : Request :=
  .lock uuid (some key) none none none (some max) false 0 false none

def lockAll (uuid : String) (keys : List String) : Request :=
  .lock uuid none (some keys) none none none false 0 false none

/-- A composite lock for so many milliseconds. -/
def lockAllFor (uuid : String) (keys : List String) (ttl : Nat) : Request :=
  .lock uuid none (some keys) none (some ttl) none false 0 false none

def unlock (uuid key lockUuid : String) : Request := .unlock uuid (some key) none (some lockUuid) false

/-- A waiter with its optional fields left out. -/
def waiter (client : ClientId) (uuid : String) (kind : PendingKind) : PendingRequest :=
  ⟨uuid, client, none, none, none, none, false, kind⟩

/-- A request of a standalone broker. -/
def ask (client : ClientId) (request : Request) : Op := .request client request {}

/-- A new broker after these operations. -/
def after (ops : List Op) : Broker := (Broker.new config).applyAll env ops

theorem reachable_after (ops : List Op) : Broker.Reachable config (after ops) := by
  have h : ∀ (ops : List Op) (b : Broker), Broker.Reachable config b →
      Broker.Reachable config (b.applyAll env ops) := by
    intro ops
    induction ops with
    | nil => exact fun b h => h
    | cons op ops ih => exact fun b h => ih _ (.apply env op h)
  exact h ops _ .new

/-- Different readings give different uuids. -/
theorem newV4_injective : Function.Injective env.newV4 := by
  intro m n h
  have := congrArg String.length h
  simpa [env] using this

end LiveMutex.Sample
