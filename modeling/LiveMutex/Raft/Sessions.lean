/-
Client sessions on the nodes of a cluster. A session gets a client id of its node's
own range and talks to the broker through the log; but the session code also calls
the broker of its node directly, when it ends or replays an answer, and the next
client id is a counter in memory that starts again behind the end of the log.

The nodes share one committed log, as consensus gives it to them; each applies it at
its own pace, may take a snapshot over, and may start again from disk. A session is
cut into the pieces between which it waits. Whether a session is retried and what it
answers its caller are left out, and of the response cache all but that a node may
pass over an entry for it.
-/
import Mathlib.Data.Nat.Bitwise
import LiveMutex.Apply
import LiveMutex.LedgerFacts
import LiveMutex.Restored
import LiveMutex.Sample

namespace LiveMutex.Raft

/-! ## Client ids -/

/-- `RAFT_CLIENT_ID_PREFIX_SHIFT` -/
def raftClientIdPrefixShift : Nat := 48

/-- `RAFT_CLIENT_ID_SEQUENCE_MASK` -/
def raftClientIdSequenceMask : Nat := 1 <<< raftClientIdPrefixShift - 1

/-- `raft_client_id_for_node`, by the node's `raft_client_id_prefix`. -/
def raftClientIdForNode (nodePrefix sequence : Nat) : ClientId :=
  nodePrefix <<< raftClientIdPrefixShift ||| max (sequence &&& raftClientIdSequenceMask) 1

/-! ## Sessions -/

/-- What a session of `run_ephemeral_with_proxy_mode` waits for, behind its
registration. -/
inductive SessionStage where
  /-- `enqueue_client_request` -/
  | enqueued
  /-- `wait_for_response` -/
  | waiting
  /-- Nothing: the lock is detached, the client is dropped next. -/
  | detached
  /-- The replicated `drop_client`. -/
  | cleaning
  deriving DecidableEq, Repr

structure EphemeralSession where
  clientId : ClientId
  request : Request
  isAcquire : Bool
  stage : SessionStage
  deriving DecidableEq

def requestForEphemeralWait (request : Request) (waitIsZero isAcquire : Bool) : Request :=
  match request with
  | .lock uuid key keys pid ttl max force retry keep wait =>
    .lock uuid key keys pid ttl max force retry keep (if isAcquire && waitIsZero then some false else wait)
  | other => other

def requestIsFailFastAcquire : Request → Bool
  | .lock _ _ _ _ _ _ _ _ _ (some false) => true
  | _ => false

def grantedLockUuid : Response → Option String
  | .lock _ _ true _ (some u) .. => some u
  | .compositeLock _ _ true (some u) .. => some u
  | .registerReadResult _ _ _ _ true (some u) .. => some u
  | .registerWriteResult _ _ _ _ true (some u) .. => some u
  | _ => none

/-- How a session ends once it has waited for its response. -/
inductive Cleanup where
  /-- `broker.drop_client` -/
  | drop
  /-- `broker.detach_lock_from_client`, then `broker.drop_client` -/
  | detach (lockUuid : String)
  /-- `drop_client`, through the log -/
  | replicate
  deriving DecidableEq, Repr

def EphemeralSession.cleanup (session : EphemeralSession) (outcome : Option Response) (isShutdown : Bool) : Cleanup :=
  match outcome.bind grantedLockUuid with
  | some lockUuid => .detach lockUuid
  | none =>
    if session.isAcquire && !(requestIsFailFastAcquire session.request || isShutdown) then .replicate else .drop

structure SessionNode where
  broker : Broker
  lastApplied : Nat := 0
  /-- The end of its log; what is not committed may still be replaced. -/
  lastIndex : Nat := 0
  snapshot : Option (Nat × BrokerRaftSnapshot) := none
  nextClientSequence : Nat := 1
  sessions : List EphemeralSession := []
  /-- How often the node was started again. -/
  life : Nat := 0

/-- The nodes, the log they have in common, and the record of the client ids that
were given to sessions. -/
structure SessionCluster (ν : Type) where
  log : List LiveMutex.RaftCommand := []
  nodes : ν → SessionNode
  opened : List (ν × ClientId) := []

structure SessionConfig (ν : Type) where
  broker : BrokerConfig
  /-- What a node's broker meets, in each of its lives. -/
  env : ν → Nat → Env
  /-- `raft_client_id_prefix` of the node's id. -/
  clientIdPrefix : ν → Nat

inductive SessionEvent (ν : Type) where
  -- the log
  | commit (command : LiveMutex.RaftCommand)
  | logEnds (index : Nat)
  | applyNext
  /-- The next entry has a request id that was applied before: `apply_committed` passes over it. -/
  | skipNext
  | takeSnapshot (now : Instant)
  | installSnapshot (from_ : ν)
  | restart
  -- the sessions; a number picks one that is under way
  | registerClient
  | runEphemeral (request : Request) (waitIsZero isAcquire : Bool)
  | replayCached (response : Response)
  | enqueueFailed (k : Nat)
  | enqueueDone (k : Nat)
  | respond (k : Nat) (outcome : Option Response) (isShutdown : Bool)
  | dropDetached (k : Nat)
  | cleanupFailed (k : Nat)
  | cleanupDone (k : Nat)
  | abandon (k : Nat)

namespace SessionNode

variable (env : Env) (n : SessionNode)

/-- `next_client_sequence` of a node that comes up with this log. -/
def openSequence (lastIndex : Nat) : Nat := max (saturatingAdd lastIndex 1) 1

/-- `next_raft_client_id` and `register_client_with_id`: the id of the next session. -/
def nextSessionId (nodePrefix : Nat) : ClientId :=
  (n.broker.registerClientWithId (raftClientIdForNode nodePrefix n.nextClientSequence)).2

def register (nodePrefix : Nat) : SessionNode :=
  { n with
    broker := (n.broker.registerClientWithId (raftClientIdForNode nodePrefix n.nextClientSequence)).1
    nextClientSequence := (n.nextClientSequence + 1) % 2 ^ 64 }

def setStage (k : Nat) (session : EphemeralSession) (stage : SessionStage) : SessionNode :=
  { n with sessions := n.sessions.set k { session with stage } }

def endSession (k : Nat) : SessionNode := { n with sessions := n.sessions.eraseIdx k }

/-- The `k`-th session, if it waits for this. -/
def sessionAt (k : Nat) (stage : SessionStage) : Option EphemeralSession :=
  n.sessions[k]?.filter (·.stage = stage)

/-- `broker.drop_client`, and the session ends. -/
def dropLocally (k : Nat) (session : EphemeralSession) : SessionNode :=
  { n.endSession k with broker := n.broker.dropClient env session.clientId }

/-- What a session does when its response has come, or will not come. -/
def respond (k : Nat) (session : EphemeralSession) (outcome : Option Response) (isShutdown : Bool) : SessionNode :=
  match session.cleanup outcome isShutdown with
  | .drop => n.dropLocally env k session
  | .detach lockUuid =>
    { n.setStage k session .detached with broker := n.broker.detachLockFromClient session.clientId lockUuid }
  | .replicate => n.setStage k session .cleaning

/-- `prepare_cached_client_response` -/
def prepareCachedClientResponse (response : Response) : SessionNode :=
  match grantedLockUuid response with
  | some lockUuid => { n with broker := n.broker.detachLockOwner lockUuid }
  | none => n

/-- A snapshot is installed on a broker. -/
def installed (base : Broker) (snapshot : Nat × BrokerRaftSnapshot) : Option SessionNode :=
  match base.installRaftSnapshot env snapshot.2 with
  | .ok broker => some { n with broker, lastApplied := snapshot.1, lastIndex := max n.lastIndex snapshot.1 }
  | .error _ => none

end SessionNode

namespace SessionCluster

variable {ν : Type} [DecidableEq ν] (config : SessionConfig ν) (s : SessionCluster ν) (i : ν)

def setNode (n : SessionNode) : SessionCluster ν := { s with nodes := Function.update s.nodes i n }

def env : Env := config.env i (s.nodes i).life

/-- A session gets its client id. -/
def openSession (n : SessionNode) : SessionCluster ν :=
  { s.setNode i n with opened := (i, (s.nodes i).nextSessionId (config.clientIdPrefix i)) :: s.opened }

/-- A node starts again: its broker is built from its latest snapshot, the rest of
the log is applied anew, and its sessions are gone. -/
def restart : Option SessionNode :=
  let n := s.nodes i
  let up : SessionNode :=
    { broker := .new config.broker, lastIndex := n.lastIndex, snapshot := n.snapshot
      nextClientSequence := SessionNode.openSequence n.lastIndex, life := n.life + 1 }
  match n.snapshot with
  | none => some up
  | some snapshot => up.installed (config.env i up.life) up.broker snapshot

def step (ev : SessionEvent ν) : Option (SessionCluster ν) :=
  let n := s.nodes i
  let env := s.env config i
  match ev with
  | .commit command =>
    some { s with log := s.log ++ [commandWithDeterministicGrant command (s.log.length + 1)] }
  | .logEnds index => if n.lastApplied ≤ index then some (s.setNode i { n with lastIndex := index }) else none
  | .applyNext =>
    if n.lastApplied < n.lastIndex then
      s.log[n.lastApplied]?.map fun command =>
        s.setNode i { n with broker := n.broker.applyCommand env command, lastApplied := n.lastApplied + 1 }
    else none
  | .skipNext =>
    if n.lastApplied < n.lastIndex then
      s.log[n.lastApplied]?.map fun _ => s.setNode i { n with lastApplied := n.lastApplied + 1 }
    else none
  | .takeSnapshot now => some (s.setNode i { n with snapshot := some (n.lastApplied, n.broker.snapshotForRaft now) })
  | .installSnapshot from_ =>
    ((s.nodes from_).snapshot.filter (n.lastApplied < ·.1)).bind fun snapshot =>
      ({ n with snapshot := some snapshot }.installed env n.broker snapshot).map (s.setNode i)
  | .restart => (s.restart config i).map (s.setNode i)
  | .registerClient => some (s.openSession config i (n.register (config.clientIdPrefix i)))
  | .runEphemeral request waitIsZero isAcquire =>
    let session : EphemeralSession :=
      ⟨n.nextSessionId (config.clientIdPrefix i), requestForEphemeralWait request waitIsZero isAcquire, isAcquire,
        .enqueued⟩
    let n' := n.register (config.clientIdPrefix i)
    some (s.openSession config i { n' with sessions := n'.sessions ++ [session] })
  | .replayCached response => some (s.setNode i (n.prepareCachedClientResponse response))
  | .enqueueFailed k => (n.sessionAt k .enqueued).map fun session => s.setNode i (n.dropLocally env k session)
  | .enqueueDone k => (n.sessionAt k .enqueued).map fun session => s.setNode i (n.setStage k session .waiting)
  | .respond k outcome isShutdown =>
    (n.sessionAt k .waiting).map fun session => s.setNode i (n.respond env k session outcome isShutdown)
  | .dropDetached k => (n.sessionAt k .detached).map fun session => s.setNode i (n.dropLocally env k session)
  | .cleanupFailed k => (n.sessionAt k .cleaning).map fun session => s.setNode i (n.dropLocally env k session)
  | .cleanupDone k => (n.sessionAt k .cleaning).map fun _ => s.setNode i (n.endSession k)
  | .abandon k => n.sessions[k]?.map fun _ => s.setNode i (n.endSession k)

/-- No node ran yet. -/
def start : SessionCluster ν where
  nodes _ := { broker := .new config.broker }

/-- An event that passes a check. -/
def stepIf (ok : SessionCluster ν → ν → SessionEvent ν → Bool) (s : SessionCluster ν) (e : ν × SessionEvent ν) :
    Option (SessionCluster ν) :=
  if ok s e.1 e.2 then s.step config e.1 e.2 else none

/-- The runs whose every event passes a check in the state before it. -/
def Run (ok : SessionCluster ν → ν → SessionEvent ν → Bool) (events : List (ν × SessionEvent ν))
    (s : SessionCluster ν) : Prop :=
  Trace (fun s e s' => s.stepIf config ok e = some s') (start config) events s

variable {config} in
/-- A run that ends in a state with a property. -/
theorem exists_of_run {ok : SessionCluster ν → ν → SessionEvent ν → Bool} {events : List (ν × SessionEvent ν)}
    {p : SessionCluster ν → Bool} (h : (events.foldlM (stepIf config ok) (start config)).any p = true) :
    ∃ s, Run config ok events s ∧ p s = true := by
  cases hrun : events.foldlM (stepIf config ok) (start config) with
  | none => simp [hrun] at h
  | some s => exact ⟨s, .of_foldlM hrun, by simpa [hrun] using h⟩

end SessionCluster

end LiveMutex.Raft

/-! ## Client ids are new -/

namespace LiveMutex

/-- A holder or a waiter of the key is this client's. -/
def LockState.names (l : LockState) (client : ClientId) : Bool :=
  l.exclusiveHolders.toList.any (·.2.client = client) || l.readers.toList.any (·.2.client = client) ||
    l.writer.any (·.client = client) || l.queue.entries.any (·.2.client = client)

theorem Broker.nextAvailableClientId_of_free {b : Broker} {id : ClientId} (h1 : 1 ≤ id) (h : b.clients[id]? = none) :
    b.nextAvailableClientId id = id := by
  have hfree : ¬(id = snapshotDetachedClient || b.clients.contains id) = true := by
    rw [Bool.or_eq_true, decide_eq_true_eq, not_or]
    exact ⟨fun he => by rw [he] at h1; exact absurd h1 (by decide), by simpa using h⟩
  rw [nextAvailableClientId, show Nat.max id 1 = id from max_eq_left h1, searchClientId, if_neg hfree]

end LiveMutex

namespace LiveMutex.Raft

namespace SessionCluster

variable {ν : Type} [DecidableEq ν]

namespace Sample

/-- Two nodes; the client ids of one begin with 1, those of the other with 2. -/
def pair : SessionConfig Bool where
  broker := LiveMutex.Sample.config
  env _ _ := LiveMutex.Sample.env
  clientIdPrefix follower := if follower then 2 else 1

/-- The leader's second session. -/
def second : ClientId := raftClientIdForNode 1 2

end Sample


omit [DecidableEq ν] in
/-- The id of a node's next session was given to one before, and a holder or a waiter
on some node is still that client's. -/
def Reuses (config : SessionConfig ν) (s : SessionCluster ν) (i : ν) : Prop :=
  (i, (s.nodes i).nextSessionId (config.clientIdPrefix i)) ∈ s.opened ∧
    ∃ (j : ν) (key : String) (l : LockState), (s.nodes j).broker.locks[key]? = some l ∧
      l.names ((s.nodes i).nextSessionId (config.clientIdPrefix i)) = true

omit [DecidableEq ν] in
/-- The sequence numbers given out are below the mask. -/
def belowMask (s : SessionCluster ν) (i : ν) : SessionEvent ν → Bool
  | .registerClient | .runEphemeral .. => (s.nodes i).nextClientSequence ≤ raftClientIdSequenceMask
  | _ => true

omit [DecidableEq ν] in
/-- A node starts again only when its log reaches as far as its sequence numbers. -/
def restartsBehind (s : SessionCluster ν) (i : ν) : SessionEvent ν → Bool
  | .restart => (s.nodes i).nextClientSequence ≤ (s.nodes i).lastIndex + 1
  | _ => true

end SessionCluster

theorem raftClientIdForNode_eq {nodePrefix sequence : Nat} (h1 : 1 ≤ sequence)
    (h : sequence ≤ raftClientIdSequenceMask) :
    raftClientIdForNode nodePrefix sequence = nodePrefix <<< raftClientIdPrefixShift + sequence := by
  have hmask : raftClientIdSequenceMask = 2 ^ raftClientIdPrefixShift - 1 := by decide
  have hlt : sequence < 2 ^ raftClientIdPrefixShift := by
    have hpos : 0 < 2 ^ raftClientIdPrefixShift := by decide
    omega
  rw [raftClientIdForNode, hmask, Nat.and_two_pow_sub_one_eq_mod, Nat.mod_eq_of_lt hlt, max_eq_left h1,
    Nat.shiftLeft_add_eq_or_of_lt hlt]

/-- What holds of a node: its broker and its snapshot come about by operations, the
clients it has registered were given their ids by it, and the numbers of those ids are
behind the counter. -/
structure SessionNode.Ok {ν : Type} (config : SessionConfig ν) (i : ν) (opened : List (ν × ClientId))
    (n : SessionNode) : Prop where
  reachable : Broker.Reachable config.broker n.broker
  snapshot : ∀ index snapshot, n.snapshot = some (index, snapshot) →
    ∃ other now, Broker.Reachable config.broker other ∧ snapshot = other.snapshotForRaft now
  registered : ∀ c : ClientId, n.broker.clients[c]? ≠ none → (i, c) ∈ opened
  positive : 1 ≤ n.nextClientSequence
  numbered : ∀ c, (i, c) ∈ opened → ∃ q, 1 ≤ q ∧ q < n.nextClientSequence ∧ q ≤ raftClientIdSequenceMask ∧
    c = raftClientIdForNode (config.clientIdPrefix i) q

namespace SessionNode.Ok

variable {ν : Type} {config : SessionConfig ν} {i : ν} {opened : List (ν × ClientId)} {n n' : SessionNode}

/-- Fields the invariant does not speak of change. -/
theorem congr (h : n.Ok config i opened) (hb : n'.broker = n.broker) (hs : n'.snapshot = n.snapshot)
    (hq : n'.nextClientSequence = n.nextClientSequence) : n'.Ok config i opened where
  reachable := hb ▸ h.reachable
  snapshot := hs ▸ h.snapshot
  registered := hb ▸ h.registered
  positive := hq ▸ h.positive
  numbered := hq ▸ h.numbered

/-- The broker is called. -/
theorem apply (h : n.Ok config i opened) (env : Env) (op : Op) (hop : op.registers = false) :
    ({ n with broker := n.broker.apply env op } : SessionNode).Ok config i opened where
  reachable := h.reachable.apply env op
  snapshot := h.snapshot
  registered c hc := h.registered c fun hn => hc (Broker.apply_clients_none (.reachable h.reachable) hop hn)
  positive := h.positive
  numbered := h.numbered

theorem applyCommand (h : n.Ok config i opened) (env : Env) (command : LiveMutex.RaftCommand) :
    ({ n with broker := n.broker.applyCommand env command } : SessionNode).Ok config i opened := by
  cases command with
  | noop => exact h
  | clientRequest clientId request grant =>
    exact h.apply env (.request clientId request (applyOverrides request grant)) rfl
  | dropClient clientId => exact h.apply env (.dropClient clientId) rfl

/-- A snapshot is installed on a broker. -/
theorem installed {env : Env} {base : Broker} {snapshot : Nat × BrokerRaftSnapshot} (h : n.Ok config i opened)
    (hbase : Broker.Reachable config.broker base) (hs : n.snapshot = some snapshot)
    (hn : n.installed env base snapshot = some n') : n'.Ok config i opened := by
  obtain ⟨index, snapshot⟩ := snapshot
  obtain ⟨other, now, hother, rfl⟩ := h.snapshot index snapshot hs
  unfold SessionNode.installed at hn
  split at hn
  · rename_i broker hi
    cases hn
    refine { reachable := .install env now hbase hother hi, snapshot := h.snapshot, registered := fun c hc => ?_
             positive := h.positive, numbered := h.numbered }
    rw [Broker.install_clients hi] at hc
    exact absurd (by simp) hc
  · cases hn

/-- The id of the next session is the one of the counter: nobody has it. -/
theorem nextSessionId_eq (h : n.Ok config i opened) (hmask : n.nextClientSequence ≤ raftClientIdSequenceMask) :
    n.nextSessionId (config.clientIdPrefix i) = raftClientIdForNode (config.clientIdPrefix i) n.nextClientSequence ∧
      (i, n.nextSessionId (config.clientIdPrefix i)) ∉ opened := by
  have heq : raftClientIdForNode (config.clientIdPrefix i) n.nextClientSequence =
      config.clientIdPrefix i <<< raftClientIdPrefixShift + n.nextClientSequence :=
    raftClientIdForNode_eq h.positive hmask
  have hnew : (i, raftClientIdForNode (config.clientIdPrefix i) n.nextClientSequence) ∉ opened := by
    intro hmem
    obtain ⟨q, hq1, hlt, hq, he⟩ := h.numbered _ hmem
    rw [heq, raftClientIdForNode_eq hq1 hq] at he
    exact absurd (Nat.add_left_cancel he) (Nat.ne_of_gt hlt)
  have hfree : n.broker.clients[raftClientIdForNode (config.clientIdPrefix i) n.nextClientSequence]? = none := by
    by_contra hne
    exact hnew (h.registered _ hne)
  have hid : n.nextSessionId (config.clientIdPrefix i) =
      raftClientIdForNode (config.clientIdPrefix i) n.nextClientSequence := by
    refine Broker.nextAvailableClientId_of_free ?_ hfree
    rw [heq]
    exact Nat.le_add_left_of_le h.positive
  exact ⟨hid, hid ▸ hnew⟩

/-- A session is opened. -/
theorem register (h : n.Ok config i opened) (hmask : n.nextClientSequence ≤ raftClientIdSequenceMask) :
    (n.register (config.clientIdPrefix i)).Ok config i
      ((i, n.nextSessionId (config.clientIdPrefix i)) :: opened) := by
  have hnext : (n.register (config.clientIdPrefix i)).nextClientSequence = n.nextClientSequence + 1 := by
    have hlt : raftClientIdSequenceMask + 1 < 2 ^ 64 := by decide
    exact Nat.mod_eq_of_lt (by omega)
  refine { reachable := ?_, snapshot := h.snapshot, registered := fun c hc => ?_, positive := ?_
           numbered := fun c hc => ?_ }
  · exact h.reachable.apply (config.env i 0)
      (.registerClientWithId (raftClientIdForNode (config.clientIdPrefix i) n.nextClientSequence))
  · change (n.broker.clients.insert (n.nextSessionId (config.clientIdPrefix i)) _)[c]? ≠ none at hc
    rw [OrdMap.get_insert] at hc
    split at hc
    · rename_i he
      exact he ▸ List.mem_cons_self
    · exact List.mem_cons_of_mem _ (h.registered c hc)
  · omega
  · rcases List.mem_cons.1 hc with he | hc
    · refine ⟨n.nextClientSequence, h.positive, by omega, hmask, ?_⟩
      rw [(Prod.mk.inj he).2]
      exact (h.nextSessionId_eq hmask).1
    · obtain ⟨q, hq1, hlt, hq, he⟩ := h.numbered c hc
      exact ⟨q, hq1, by omega, hq, he⟩

end SessionNode.Ok

namespace SessionCluster

variable {ν : Type} [DecidableEq ν] {config : SessionConfig ν} {s s' : SessionCluster ν} {i : ν} {ev : SessionEvent ν}

omit [DecidableEq ν] in
/-- What holds of every node. -/
def Ok (config : SessionConfig ν) (s : SessionCluster ν) : Prop := ∀ i, (s.nodes i).Ok config i s.opened

/-- What holds of the new node, and of the others before, holds of all. -/
theorem forall_setNode {P : ν → SessionNode → Prop} {n : SessionNode} (h : ∀ j, j ≠ i → P j (s.nodes j)) (hn : P i n)
    (j : ν) : P j ((s.setNode i n).nodes j) := by
  by_cases hj : j = i
  · subst hj
    rwa [show (s.setNode j n).nodes j = n from Function.update_self ..]
  · rw [show (s.setNode i n).nodes j = s.nodes j from Function.update_of_ne hj ..]
    exact h j hj

theorem stepIf_eq_some {ok : SessionCluster ν → ν → SessionEvent ν → Bool} {e : ν × SessionEvent ν} :
    s.stepIf config ok e = some s' ↔ ok s e.1 e.2 = true ∧ s.step config e.1 e.2 = some s' :=
  Option.ite_none_right_eq_some

theorem Ok.setNode (h : s.Ok config) {n : SessionNode} (hn : n.Ok config i s.opened) : (s.setNode i n).Ok config :=
  forall_setNode (P := fun j n => n.Ok config j s.opened) (fun j _ => h j) hn

/-- A session is opened: the other nodes' ids are what they were. -/
theorem Ok.openSession (h : s.Ok config) {n : SessionNode}
    (hn : n.Ok config i ((i, (s.nodes i).nextSessionId (config.clientIdPrefix i)) :: s.opened)) :
    (s.openSession config i n).Ok config := by
  refine forall_setNode (P := fun j n => n.Ok config j (s.openSession config i n).opened) (fun j hj => ?_) hn
  refine { h j with registered := fun c hc => List.mem_cons_of_mem _ ((h j).registered c hc)
                    numbered := fun c hc => ?_ }
  rcases List.mem_cons.1 hc with he | hc
  · exact absurd (Prod.mk.inj he).1 hj
  · exact (h j).numbered c hc

omit [DecidableEq ν] in
theorem Ok.dropLocally (h : s.Ok config) {env : Env} {k : Nat} {session : EphemeralSession} :
    ((s.nodes i).dropLocally env k session).Ok config i s.opened :=
  ((h i).apply env (.dropClient session.clientId) rfl).congr rfl rfl rfl

omit [DecidableEq ν] in
theorem Ok.respond (h : s.Ok config) {env : Env} {k : Nat} {session : EphemeralSession} {outcome : Option Response}
    {isShutdown : Bool} : ((s.nodes i).respond env k session outcome isShutdown).Ok config i s.opened := by
  unfold SessionNode.respond
  split
  · exact h.dropLocally
  · rename_i lockUuid _
    exact ((h i).apply env (.detachLockFromClient session.clientId lockUuid) rfl).congr rfl rfl rfl
  · exact (h i).congr rfl rfl rfl

omit [DecidableEq ν] in
/-- A node comes up again with a counter that is not behind its ids. -/
theorem Ok.restart (h : s.Ok config) {n : SessionNode} (hr : s.restartsBehind i .restart = true)
    (hs : s.restart config i = some n) : n.Ok config i s.opened := by
  have hup : (⟨.new config.broker, 0, (s.nodes i).lastIndex, (s.nodes i).snapshot,
      SessionNode.openSequence (s.nodes i).lastIndex, [], (s.nodes i).life + 1⟩ : SessionNode).Ok config i s.opened := by
    refine { reachable := .new, snapshot := (h i).snapshot
             registered := fun c hc => absurd (by simp [Broker.new, BrokerState.new]) hc
             positive := le_max_right _ _, numbered := fun c hc => ?_ }
    obtain ⟨q, hq1, hlt, hq, he⟩ := (h i).numbered c hc
    refine ⟨q, hq1, ?_, hq, he⟩
    have hmask : raftClientIdSequenceMask < u64Max := by decide
    simp only [restartsBehind, decide_eq_true_eq] at hr
    simp only [SessionNode.openSequence, saturatingAdd]
    omega
  unfold SessionCluster.restart at hs
  dsimp only at hs
  split at hs
  · cases hs
    exact hup
  · rename_i snapshot hsnap
    exact hup.installed .new hsnap hs

/-- **One event.** -/
theorem Ok.step (h : s.Ok config) (hmask : s.belowMask i ev = true) (hr : s.restartsBehind i ev = true)
    (hs : s.step config i ev = some s') : s'.Ok config := by
  cases ev with
  | commit command =>
    cases hs
    exact h
  | logEnds index =>
    cases (Option.ite_none_right_eq_some.1 hs).2
    exact h.setNode ((h i).congr rfl rfl rfl)
  | applyNext =>
    obtain ⟨command, _, rfl⟩ := Option.map_eq_some_iff.1 (Option.ite_none_right_eq_some.1 hs).2
    exact h.setNode (((h i).applyCommand _ command).congr rfl rfl rfl)
  | skipNext =>
    obtain ⟨_, _, rfl⟩ := Option.map_eq_some_iff.1 (Option.ite_none_right_eq_some.1 hs).2
    exact h.setNode ((h i).congr rfl rfl rfl)
  | takeSnapshot now =>
    cases hs
    refine h.setNode { h i with snapshot := fun index snapshot he => ?_ }
    cases he
    exact ⟨_, now, (h i).reachable, rfl⟩
  | installSnapshot from_ =>
    obtain ⟨snapshot, hf, hs⟩ := Option.bind_eq_some_iff.1 hs
    obtain ⟨n, hn, rfl⟩ := Option.map_eq_some_iff.1 hs
    have hsnap := (Option.filter_eq_some_iff.1 hf).1
    have hwith : ({ s.nodes i with snapshot := some snapshot } : SessionNode).Ok config i s.opened := by
      refine { h i with snapshot := fun index snapshot' he => ?_ }
      exact (h from_).snapshot index snapshot' (hsnap.trans he)
    exact h.setNode (hwith.installed (h i).reachable rfl hn)
  | restart =>
    obtain ⟨n, hn, rfl⟩ := Option.map_eq_some_iff.1 hs
    exact h.setNode (h.restart hr hn)
  | registerClient =>
    cases hs
    exact h.openSession ((h i).register (by simpa [belowMask] using hmask))
  | runEphemeral request waitIsZero isAcquire =>
    cases hs
    have hmask' : (s.nodes i).nextClientSequence ≤ raftClientIdSequenceMask := by simpa [belowMask] using hmask
    exact h.openSession (((h i).register hmask').congr rfl rfl rfl)
  | replayCached response =>
    cases hs
    refine h.setNode ?_
    unfold SessionNode.prepareCachedClientResponse
    split
    · rename_i lockUuid _
      exact (h i).apply (config.env i 0) (.detachLockOwner lockUuid) rfl
    · exact h i
  | enqueueFailed k | dropDetached k | cleanupFailed k =>
    obtain ⟨session, _, rfl⟩ := Option.map_eq_some_iff.1 hs
    exact h.setNode h.dropLocally
  | respond k outcome isShutdown =>
    obtain ⟨session, _, rfl⟩ := Option.map_eq_some_iff.1 hs
    exact h.setNode h.respond
  | enqueueDone k | cleanupDone k | abandon k =>
    obtain ⟨_, _, rfl⟩ := Option.map_eq_some_iff.1 hs
    exact h.setNode ((h i).congr rfl rfl rfl)

omit [DecidableEq ν] in
theorem Ok.start : (start config).Ok config := fun _ =>
  { reachable := .new, snapshot := fun _ _ he => (by cases he)
    registered := fun c hc => absurd (by simp [SessionCluster.start, Broker.new, BrokerState.new]) hc
    positive := Nat.le_refl 1, numbered := fun c hc => (by cases hc) }

/-- **Client ids are not reused**, as long as a node starts again only when its log
reaches as far as the numbers it has given out: the id of a node's next session is not
one that it gave to a session before and that still stands for a holder or a waiter
somewhere. -/
theorem Run.never_reuses {events : List (ν × SessionEvent ν)}
    (h : Run config (fun s i ev => s.belowMask i ev && s.restartsBehind i ev) events s)
    (hmask : (s.nodes i).nextClientSequence ≤ raftClientIdSequenceMask) : ¬s.Reuses config i := by
  have hok : s.Ok config := by
    refine Trace.inv h (fun s e s' _ hs hi => ?_) Ok.start
    obtain ⟨hcheck, hs⟩ := stepIf_eq_some.1 hs
    rw [Bool.and_eq_true] at hcheck
    exact hi.step hcheck.1 hcheck.2 hs
  intro hreuse
  exact ((hok i).nextSessionId_eq hmask).2 hreuse.1

namespace Sample

open LiveMutex.Sample (lock)

/-- Two sessions; the second one's client asks for a key and holds it. -/
def held : List (Bool × SessionEvent Bool) :=
  [(false, .registerClient), (false, .registerClient), (false, .commit (.clientRequest second (lock "a" "k") none)),
   (false, .logEnds 1), (false, .applyNext)]

/-- The node starts again and applies its log. -/
def restarted : List (Bool × SessionEvent Bool) :=
  held ++ [(false, .restart), (false, .applyNext)]

end Sample

/-- A third session. -/
theorem Run.never_reuses_third : ∃ s, Run Sample.pair (fun s i ev => s.belowMask i ev && s.restartsBehind i ev)
    Sample.held s ∧ (s.nodes false).nextClientSequence = 3 ∧ ¬s.Reuses Sample.pair false := by
  obtain ⟨s, hrun, hp⟩ : ∃ s, Run Sample.pair (fun s i ev => s.belowMask i ev && s.restartsBehind i ev) Sample.held s ∧
      decide ((s.nodes false).nextClientSequence = 3) = true := exists_of_run (by decide +kernel)
  rw [decide_eq_true_eq] at hp
  exact ⟨s, hrun, hp, hrun.never_reuses (hp ▸ by decide)⟩

/-- The log of a node that starts again is shorter than the sequence of its sessions:
the next session gets the id of the client that holds the key. -/
theorem Run.reuses_after_restart : ∃ s, Run Sample.pair belowMask Sample.restarted s ∧
    (s.nodes false).nextClientSequence ≤ raftClientIdSequenceMask ∧ s.Reuses Sample.pair false := by
  obtain ⟨s, hrun, hp⟩ : ∃ s, Run Sample.pair belowMask Sample.restarted s ∧
      (decide ((s.nodes false).nextClientSequence ≤ raftClientIdSequenceMask) &&
        decide ((false, (s.nodes false).nextSessionId (Sample.pair.clientIdPrefix false)) ∈ s.opened) &&
        (s.nodes false).broker.locks["k"]?.any
          (·.names ((s.nodes false).nextSessionId (Sample.pair.clientIdPrefix false)))) = true :=
    exists_of_run (by decide +kernel)
  rw [Bool.and_eq_true, Bool.and_eq_true, decide_eq_true_eq, decide_eq_true_eq, Option.any_eq_true] at hp
  obtain ⟨⟨hmask, hopened⟩, l, hl, hnames⟩ := hp
  exact ⟨s, hrun, hmask, hopened, false, "k", l, hl, hnames⟩

end SessionCluster

end LiveMutex.Raft
