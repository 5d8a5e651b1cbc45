/-
Replicated commands: the grant plan a leader attaches to a client request
when it appends it, and what applying a committed entry does to the broker.
-/
import LiveMutex.Lifecycle

namespace LiveMutex

/-- `RAFT_FENCING_TOKEN_BASE` -/
def raftFencingTokenBase : Nat := 4000000000000000

structure RaftGrantPlan where
  lockUuid : Option String
  fencingSeed : Option Nat
  deriving DecidableEq, Repr

/-- The commands that reach the broker. Membership and learner entries do
not, and an identified request is applied like a plain one. -/
inductive RaftCommand where
  | noop
  | clientRequest (clientId : ClientId) (request : Request) (grant : Option RaftGrantPlan)
  | dropClient (clientId : ClientId)
  deriving DecidableEq, Repr

/-- `u64::saturating_mul` -/
def saturatingMul (a b : Nat) : Nat := min (a * b) u64Max

/-- `{index:020}`: decimal, padded with zeros to twenty digits -/
def padded20 (n : Nat) : String :=
  let digits := Nat.toDigits 10 n
  String.ofList (List.replicate (20 - digits.length) '0' ++ digits)

def deterministicLockUuid (index : Nat) : String := "raft-" ++ padded20 index

def deterministicFencingSeed (index : Nat) : Nat :=
  saturatingAdd raftFencingTokenBase (saturatingMul index (maxCompositeKeys + 1))

def requestCanGrant : Request → Bool
  | .lock .. | .registerRead .. | .registerWrite .. => true
  | _ => false

def deterministicGrantPlan (request : Request) (index : Nat) : Option RaftGrantPlan :=
  if requestCanGrant request then
    some ⟨some (deterministicLockUuid index), some (deterministicFencingSeed index)⟩
  else none

def commandWithDeterministicGrant (command : RaftCommand) (index : Nat) : RaftCommand :=
  match command with
  | .clientRequest clientId request grant =>
    .clientRequest clientId request (grant <|> deterministicGrantPlan request index)
  | other => other

/-- The overrides of `apply_client_request`. -/
def applyOverrides (request : Request) (grant : Option RaftGrantPlan) : GrantOverrides :=
  let planned := grant.bind (·.lockUuid)
  let grantLockUuid :=
    match request with
    | .lock uuid .. => planned <|> some uuid
    | _ => none
  { lockUuid := planned <|> grantLockUuid, fencingSeed := grant.bind (·.fencingSeed) }

namespace Broker

variable (env : Env) (b : Broker)

def applyClientRequest (clientId : ClientId) (request : Request) (grant : Option RaftGrantPlan) : Broker :=
  b.handleRequest env clientId request (applyOverrides request grant)

/-- The broker's part of `apply_committed` on one entry. -/
def applyCommand : RaftCommand → Broker
  | .noop => b
  | .clientRequest clientId request grant => b.applyClientRequest env clientId request grant
  | .dropClient clientId => b.dropClient env clientId

end Broker

end LiveMutex
