/-
What sessions do to the tables of the nodes. On seven paths the session code drops
its client on the broker of its node alone, past the log. That does nothing when the
node has applied no lock request of the client; nor when it has applied one, the
client is still registered, and the request is answered: it was refused, or it was
granted and the lock has been detached from the client or is to outlive it. Otherwise
the drop takes a waiter or a holder that the other nodes keep.
-/
import LiveMutex.Clients
import LiveMutex.Raft.Sessions

namespace LiveMutex

namespace LockState

/-- The entry without the owners of its holders. -/
def unowned (l : LockState) : LockState :=
  { l with
    exclusiveHolders := l.exclusiveHolders.map fun _ h => { h with client := snapshotDetachedClient }
    readers := l.readers.map fun _ h => { h with client := snapshotDetachedClient }
    writer := l.writer.map fun w => { w with client := snapshotDetachedClient } }

theorem unowned_detachOwner (l : LockState) (lockUuid : String) : (l.detachOwner lockUuid).unowned = l.unowned := by
  have hwriter : (l.writer.map fun w =>
      if w.lockUuid = lockUuid then { w with client := snapshotDetachedClient } else w).map
        (fun w => { w with client := snapshotDetachedClient }) =
      l.writer.map fun w => { w with client := snapshotDetachedClient } := by
    rw [Option.map_map]
    refine congrArg (Option.map · l.writer) (funext fun w => ?_)
    rw [Function.comp_apply]
    split <;> rfl
  have hexclusive : (l.exclusiveHolders.modify lockUuid fun h => { h with client := snapshotDetachedClient }).map
      (fun _ h => { h with client := snapshotDetachedClient }) =
      l.exclusiveHolders.map fun _ h => { h with client := snapshotDetachedClient } :=
    OrdMap.map_modify (fun _ => by rfl) _ _
  have hreaders : (l.readers.modify lockUuid fun h => { h with client := snapshotDetachedClient }).map
      (fun _ h => { h with client := snapshotDetachedClient }) =
      l.readers.map fun _ h => { h with client := snapshotDetachedClient } :=
    OrdMap.map_modify (fun _ => by rfl) _ _
  simp only [unowned, detachOwner, hexclusive, hreaders, hwriter]

end LockState

namespace Broker

variable {env : Env} {b b' b'' : Broker} {client : ClientId}

/-- The same holders, waiters and counters, whoever the holders' clients are. -/
def SameTable (b b' : Broker) : Prop :=
  (b'.locks.map fun _ l => l.unowned) = b.locks.map fun _ l => l.unowned

theorem SameTable.of_locks (h : b'.locks = b.locks) : b.SameTable b' := by
  rw [SameTable, h]

theorem SameTable.trans (h : b.SameTable b') (h' : b'.SameTable b'') : b.SameTable b'' := Eq.trans h' h

theorem detachLockOwner_sameTable (lockUuid : String) : b.SameTable (b.detachLockOwner lockUuid) := by
  unfold SameTable
  rw [detachLockOwner_locks]
  refine OrdMap.eq_of_get fun k => ?_
  simp only [Std.ExtTreeMap.getElem?_map, Option.map_map]
  exact congrArg (Option.map · _) (funext fun l => l.unowned_detachOwner lockUuid)

/-! ## A drop that takes nothing -/

theorem wakeTouched_nil {d : Dropping} {wake : Broker → String → Broker} (h : d.touchedKeys = []) :
    wakeTouched env d wake = { d.broker with reads := d.broker.reads + 1 } := by
  have hnil : env.order d.broker.reads [] = [] := (env.order_perm _ _).eq_nil
  rw [wakeTouched, h, hnil]
  rfl

/-- The scan of the table for a client that nothing belongs to finds nothing. -/
theorem dropUnregistered_of_unnamed
    (h : ∀ (key : String) (l : LockState), b.locks[key]? = some l → l.names client = false) :
    b.dropUnregistered env client = ⟨{ b with reads := b.reads + 1 }, []⟩ := by
  have hl : ∀ kl ∈ hashIter (env.order b.reads) b.locks, kl.2.names client = false :=
    fun kl hkl => h kl.1 kl.2 ((mem_hashIter _ _ _).1 hkl)
  simp only [LockState.names, Bool.or_eq_false_iff, List.any_eq_false, decide_eq_true_eq, Prod.forall,
    OrdMap.mem_toList] at hl
  have hqueued : (hashIter (env.order b.reads) b.locks).flatMap (fun kl =>
      (kl.2.queue.entries.filter fun e => e.2.client = client).map fun e => (kl.1, e.1)) = [] := by
    refine List.flatMap_eq_nil_iff.2 fun kl hkl => ?_
    rw [List.map_eq_nil_iff, List.filter_eq_nil_iff]
    simpa using (hl kl.1 kl.2 hkl).2
  have hexclusive : (hashIter (env.order b.reads) b.locks).flatMap (fun kl =>
      ((hashIter (env.order b.reads) kl.2.exclusiveHolders).filter fun e => e.2.client = client).map
        fun e => (kl.1, e.1)) = [] := by
    refine List.flatMap_eq_nil_iff.2 fun kl hkl => ?_
    rw [List.map_eq_nil_iff, List.filter_eq_nil_iff]
    intro e he
    simpa using (hl kl.1 kl.2 hkl).1.1.1 e.1 e.2 ((mem_hashIter _ _ _).1 he)
  have hreaders : (hashIter (env.order b.reads) b.locks).flatMap (fun kl =>
      ((hashIter (env.order b.reads) kl.2.readers).filter fun e => e.2.client = client).map
        fun e => (kl.1, e.1)) = [] := by
    refine List.flatMap_eq_nil_iff.2 fun kl hkl => ?_
    rw [List.map_eq_nil_iff, List.filter_eq_nil_iff]
    intro e he
    simpa using (hl kl.1 kl.2 hkl).1.1.2 e.1 e.2 ((mem_hashIter _ _ _).1 he)
  have hwriter : ((hashIter (env.order b.reads) b.locks).filter fun kl =>
      kl.2.writer.any fun w => w.client = client) = [] := by
    rw [List.filter_eq_nil_iff]
    intro kl hkl
    rw [(hl kl.1 kl.2 hkl).1.2]
    exact Bool.false_ne_true
  unfold dropUnregistered
  simp only [hqueued, hexclusive, hreaders, hwriter, List.map_nil, List.foldl_nil]

/-- Nor does a handle that notes no waiter, and no lock but those that outlive it. -/
theorem dropRegistered_of_kept {handle : ClientHandle} (hp : handle.pendingRequestUuids = [])
    (hk : ∀ (u : String) ko, handle.heldLockUuids[u]? = some ko → ∀ k ∈ ko.keys, ∀ l, b.locks[k]? = some l →
      l.keptAfterDeath u ko.rwKind = true) :
    b.dropRegistered env client handle =
      ⟨{ b with clients := b.clients.erase client, reads := b.reads + 1 }, []⟩ := by
  unfold dropRegistered
  simp only [hp, List.foldl_nil]
  have hkey : ∀ (u : String) ko, handle.heldLockUuids[u]? = some ko → ∀ keys : List String, (∀ k ∈ keys, k ∈ ko.keys) →
      keys.foldl (Dropping.releaseHeld u ko.rwKind)
        ⟨{ b with clients := b.clients.erase client, reads := b.reads + 1 }, []⟩ =
        ⟨{ b with clients := b.clients.erase client, reads := b.reads + 1 }, []⟩ := by
    intro u ko hko keys hkeys
    refine List.foldlRecOn (motive := fun d => d = _) keys _ rfl fun d hd k hmem => ?_
    subst hd
    unfold Dropping.releaseHeld
    cases hl : b.locks[k]? with
    | none => rfl
    | some l => simp only [hk u ko hko k (hkeys k hmem) l hl, if_true]
  refine List.foldlRecOn (motive := fun d => d = _) _ _ rfl fun d hd e he => ?_
  subst hd
  exact hkey e.1 e.2 ((mem_hashIter _ _ _).1 he) e.2.keys fun _ h => h

theorem dropClient_locks_of_kept {handle : ClientHandle} (hc : b.clients[client]? = some handle)
    (hp : handle.pendingRequestUuids = [])
    (hk : ∀ (u : String) ko, handle.heldLockUuids[u]? = some ko → ∀ k ∈ ko.keys, ∀ l, b.locks[k]? = some l →
      l.keptAfterDeath u ko.rwKind = true) : (b.dropClient env client).locks = b.locks := by
  unfold dropClient
  simp only [hc, dropRegistered_of_kept hp hk]
  rw [wakeTouched_nil rfl]

theorem dropClient_locks_of_clean (hc : b.clients[client]? ≠ none) (h : b.ledger.Clean client) :
    (b.dropClient env client).locks = b.locks := by
  obtain ⟨handle, hh⟩ := Option.ne_none_iff_exists'.1 hc
  have hblank := h.handle hh
  exact dropClient_locks_of_kept hh hblank.1 fun u ko hko =>
    absurd (hko.symm.trans (hblank.2 u)) (Option.some_ne_none _)

theorem unnamed_of_untouched (h : b.ledger.Untouched client) {key : String} {l : LockState}
    (hl : b.locks[key]? = some l) : l.names client = false := by
  have hstake : ∀ kind u s, l.stake kind u = some s → s.client ≠ client :=
    fun _ _ _ hs => h.stake (k := key) (Option.bind_eq_some_iff.2 ⟨l, hl, hs⟩)
  simp only [LockState.names, Bool.or_eq_false_iff, List.any_eq_false, decide_eq_true_eq, Prod.forall,
    OrdMap.mem_toList]
  refine ⟨⟨⟨fun u holder hu => ?_, fun u holder hu => ?_⟩, ?_⟩, fun x p hp => ?_⟩
  · exact hstake .exclusive u ⟨holder.client, holder.kept, holder.fencingToken⟩ (by simp [LockState.stake, hu])
  · exact hstake .read u ⟨holder.client, false, holder.fencingToken⟩ (by simp [LockState.stake, hu])
  · cases hw : l.writer with
    | none => rfl
    | some w =>
      simpa using hstake .write w.lockUuid ⟨w.client, false, w.fencingToken⟩ (by simp [LockState.stake, hw])
  · exact h.waits (ledger_waits.2 ⟨l, hl, hp⟩)

theorem dropClient_locks_of_untouched (h : b.ledger.Untouched client) : (b.dropClient env client).locks = b.locks := by
  cases hc : b.clients[client]? with
  | none =>
    unfold dropClient
    simp only [hc, dropUnregistered_of_unnamed fun _ _ => unnamed_of_untouched h]
    rw [wakeTouched_nil rfl]
  | some handle =>
    exact dropClient_locks_of_clean (by rw [hc]; exact Option.some_ne_none _) ⟨h.waits, h.handle⟩

/-! ## Where accounts start -/

theorem untouched_new (cfg : BrokerConfig) (c : ClientId) : (Broker.new cfg).ledger.Untouched c where
  waits hw := by simp [Ledger.Waits] at hw
  stake hs := by simp at hs
  handle hh := by simp at hh
  told m hm := by simp at hm

/-- A snapshot in which the client does not wait. -/
theorem untouched_install {other : Broker} {now : Instant} {c : ClientId} (hs : other.Sane)
    (hc : c ≠ snapshotDetachedClient) (hw : ∀ {k x p}, other.ledger.Waits k x p → p.client ≠ c)
    (ht : ∀ m ∈ b.ledger.past.notices, m.client ≠ c)
    (hi : b.installRaftSnapshot env (other.snapshotForRaft now) = .ok b') : b'.ledger.Untouched c := by
  have hlocks := (installBrokerRaftSnapshot_locks (installRaftSnapshot_ok hi).2).1
  refine ⟨fun hw' => ?_, fun hst => ?_, fun hh => ?_, fun m hm => ?_⟩
  · obtain ⟨p₀, hw₀, rfl⟩ := restore_waits hs hlocks (ledger_waits.1 hw')
    have hne := hw (ledger_waits.2 hw₀)
    exact hne
  · rw [restore_stake hlocks] at hst
    obtain ⟨_, _, rfl⟩ := Option.map_eq_some_iff.1 hst
    exact hc.symm
  · change b'.clients[c]? = _ at hh
    rw [install_clients hi] at hh
    simp at hh
  · change m ∈ b'.past.notices at hm
    rw [(install_rest hi).2.2.2] at hm
    exact ht m hm

end Broker

end LiveMutex

namespace LiveMutex.Raft

/-! ## When a local drop is harmless -/

/-- The lock request of the client that an entry of the log is. -/
def acquiresFor (client : ClientId) : LiveMutex.RaftCommand → Option Request
  | .clientRequest clientId request _ =>
    if clientId = client ∧ requestCanGrant request = true then some request else none
  | _ => none

/-- The lock requests of the client among entries of the log. -/
def lockRequests (client : ClientId) (log : List LiveMutex.RaftCommand) : List Request :=
  log.filterMap (acquiresFor client)

namespace SessionNode

/-- The node told the client that it has a lock. -/
def awarded (n : SessionNode) (client : ClientId) : Bool :=
  n.broker.sent.any fun m => m.client = client && m.response.awarded.isSome

/-- Every lock the node awarded to the client is to outlive it. -/
def outlives (n : SessionNode) (client : ClientId) : Bool :=
  n.broker.sent.all fun m => m.client ≠ client || m.response.award.all fun a =>
    a.lock.keys.all fun k => n.broker.locks[k]?.all fun l => l.keptAfterDeath a.lockUuid a.lock.rwKind

/-- The node sent the client this response, and the client was there to get it. -/
def answers (n : SessionNode) (client : ClientId) (response : Response) : Bool :=
  n.broker.sent.any fun m => m.client = client && m.response = response && m.delivered

end SessionNode

namespace SessionCluster

variable {ν : Type}

/-- The lock requests of a client among the entries that a node has applied. -/
def acquired (s : SessionCluster ν) (i : ν) (client : ClientId) : List Request :=
  lockRequests client (s.log.take (s.nodes i).lastApplied)

/-- The session may drop its client on its node alone: the node has applied no lock
request of the client; or it has applied one, the client is still registered, and
the lock has been detached from it, or the request was refused, or what was granted
outlives the client. -/
def settled (s : SessionCluster ν) (i : ν) (session : EphemeralSession) : Bool :=
  match s.acquired i session.clientId with
  | [] => true
  | [request] => (s.nodes i).broker.clients.contains session.clientId &&
      (session.stage = .detached ||
        (!request.joins || (s.nodes i).awarded session.clientId) && (s.nodes i).outlives session.clientId)
  | _ => false

/-- A session gets a client id no lock request of which was applied on the node, takes
as its answer a response that was sent to it, and drops its client on its node alone
only when it may. -/
def sessionsSettle (config : SessionConfig ν) (s : SessionCluster ν) (i : ν) : SessionEvent ν → Bool
  | .registerClient | .runEphemeral .. =>
    (s.acquired i ((s.nodes i).nextSessionId (config.clientIdPrefix i))).isEmpty
  | .enqueueFailed k => ((s.nodes i).sessionAt k .enqueued).all (s.settled i)
  | .respond k outcome isShutdown => ((s.nodes i).sessionAt k .waiting).all fun session =>
      outcome.all ((s.nodes i).answers session.clientId) &&
        (session.cleanup outcome isShutdown ≠ .drop || s.settled i session)
  | .dropDetached k => ((s.nodes i).sessionAt k .detached).all (s.settled i)
  | .cleanupFailed k => ((s.nodes i).sessionAt k .cleaning).all (s.settled i)
  | _ => true

end SessionCluster

/-- The events that bring the log or a snapshot to a node's broker. -/
def SessionEvent.replicates {ν : Type} : SessionEvent ν → Bool
  | .applyNext | .installSnapshot _ | .restart => true
  | _ => false

/-! ## Accounts -/

/-- What a node has of each client, by the lock requests of the client that it has
applied. -/
structure SessionNode.Accounts (cfg : BrokerConfig) (log : List LiveMutex.RaftCommand) (n : SessionNode) : Prop where
  reachable : Broker.Reachable cfg n.broker
  applied : n.lastApplied ≤ log.length
  untouched {c : ClientId} : c ≠ snapshotDetachedClient → lockRequests c (log.take n.lastApplied) = [] →
    n.broker.ledger.Untouched c
  once {c : ClientId} {r : Request} : c ≠ snapshotDetachedClient → n.broker.clients[c]? ≠ none →
    lockRequests c (log.take n.lastApplied) = [r] → n.broker.ledger.Once c r.joins
  ids : ∀ session ∈ n.sessions, session.clientId ≠ snapshotDetachedClient
  detached : ∀ session ∈ n.sessions, session.stage = .detached →
    lockRequests session.clientId (log.take n.lastApplied) ≠ [] ∧
      ∀ r, n.broker.clients[session.clientId]? ≠ none →
        lockRequests session.clientId (log.take n.lastApplied) = [r] → n.broker.ledger.Clean session.clientId
  snapshot : ∀ index snap, n.snapshot = some (index, snap) → index ≤ log.length ∧
    ∃ other now, Broker.Reachable cfg other ∧ snap = other.snapshotForRaft now ∧
      ∀ c, c ≠ snapshotDetachedClient → lockRequests c (log.take index) = [] →
        ∀ {k x p}, other.ledger.Waits k x p → p.client ≠ c

namespace SessionNode.Accounts

variable {cfg : BrokerConfig} {log : List LiveMutex.RaftCommand} {n n' : SessionNode}

/-- An entry is committed. -/
theorem commit (h : n.Accounts cfg log) (command : LiveMutex.RaftCommand) : n.Accounts cfg (log ++ [command]) := by
  have htake : ∀ {m}, m ≤ log.length → (log ++ [command]).take m = log.take m :=
    fun hm => List.take_append_of_le_length hm
  have hlen : log.length ≤ (log ++ [command]).length := by simp
  refine ⟨h.reachable, h.applied.trans hlen, ?_, ?_, h.ids, ?_, fun index snap hs => ?_⟩
  · rw [htake h.applied]
    exact h.untouched
  · rw [htake h.applied]
    exact h.once
  · rw [htake h.applied]
    exact h.detached
  · obtain ⟨hindex, hother⟩ := h.snapshot index snap hs
    rw [htake hindex]
    exact ⟨hindex.trans hlen, hother⟩

/-- Sessions go, or wait for something else than to be dropped. -/
theorem sessions (h : n.Accounts cfg log) {sessions : List EphemeralSession}
    (hs : ∀ session ∈ sessions, session ∈ n.sessions ∨
      session.clientId ≠ snapshotDetachedClient ∧ session.stage ≠ .detached) :
    ({ n with sessions } : SessionNode).Accounts cfg log where
  reachable := h.reachable
  applied := h.applied
  untouched := h.untouched
  once := h.once
  ids session hmem := (hs session hmem).elim (h.ids session) And.left
  detached session hmem hst := h.detached session ((hs session hmem).resolve_right fun hn => hn.2 hst) hst
  snapshot := h.snapshot

theorem endSession (h : n.Accounts cfg log) (k : Nat) : (n.endSession k).Accounts cfg log :=
  h.sessions fun _ hmem => .inl (List.mem_of_mem_eraseIdx hmem)

theorem setStage (h : n.Accounts cfg log) {k : Nat} {session : EphemeralSession} {stage : SessionStage}
    (hk : session ∈ n.sessions) (hst : stage ≠ .detached) : (n.setStage k session stage).Accounts cfg log := by
  refine h.sessions fun session' hmem => ?_
  rcases List.mem_or_eq_of_mem_set hmem with hmem | rfl
  · exact .inl hmem
  · exact .inr ⟨h.ids session hk, hst⟩

/-- The broker is called, by an operation that is no lock request. -/
theorem apply (h : n.Accounts cfg log) (env : Env) (op : Op) (hop : ∀ c, op.acquires c = none)
    (hnew : ∀ c, c ≠ snapshotDetachedClient → n.broker.clients[c]? = none → (n.broker.apply env op).clients[c]? ≠ none →
      lockRequests c (log.take n.lastApplied) = []) :
    ({ n with broker := n.broker.apply env op } : SessionNode).Accounts cfg log where
  reachable := h.reachable.apply env op
  applied := h.applied
  untouched hc hnone := Broker.apply_untouched (.reachable h.reachable) hc (hop _) (h.untouched hc hnone)
  once {c r} hc hreg hone := by
    refine Broker.apply_once (.reachable h.reachable) hc (hop c) (h.once hc (fun hn => ?_) hone)
    cases (hnew c hc hn hreg).symm.trans hone
  ids := h.ids
  detached session hmem hst := by
    obtain ⟨hne, hclean⟩ := h.detached session hmem hst
    have hc := h.ids session hmem
    refine ⟨hne, fun r hreg hone => ?_⟩
    refine Broker.apply_clean (.reachable h.reachable) hc (hop _) (hclean r (fun hn => ?_) hone)
    exact hne (hnew _ hc hn hreg)
  snapshot := h.snapshot

theorem call (h : n.Accounts cfg log) (env : Env) (op : Op) (hop : ∀ c, op.acquires c = none)
    (hreg : op.registers = false) : ({ n with broker := n.broker.apply env op } : SessionNode).Accounts cfg log :=
  h.apply env op hop fun _ _ hn hne => absurd (Broker.apply_clients_none (.reachable h.reachable) hreg hn) hne

/-- The requests of a client once one more entry is applied. -/
theorem acquired_succ {m : Nat} {command : LiveMutex.RaftCommand} (hm : log[m]? = some command) (c : ClientId) :
    lockRequests c (log.take (m + 1)) = lockRequests c (log.take m) ++ (acquiresFor c command).toList := by
  unfold lockRequests
  rw [List.take_add_one, hm, List.filterMap_append, Option.toList_some, List.filterMap_cons, List.filterMap_nil]
  cases acquiresFor c command <;> rfl

/-- The next entry is applied, or passed over. -/
theorem next (h : n.Accounts cfg log) {command : LiveMutex.RaftCommand} (hm : log[n.lastApplied]? = some command)
    {broker : Broker} (hb : Broker.Reachable cfg broker)
    (hreg : ∀ c : ClientId, n.broker.clients[c]? = none → broker.clients[c]? = none)
    (huntouched : ∀ c, c ≠ snapshotDetachedClient → acquiresFor c command = none → n.broker.ledger.Untouched c →
      broker.ledger.Untouched c)
    (hclean : ∀ c, c ≠ snapshotDetachedClient → acquiresFor c command = none → n.broker.ledger.Clean c →
      broker.ledger.Clean c)
    (honce : ∀ c joins, c ≠ snapshotDetachedClient → acquiresFor c command = none → n.broker.ledger.Once c joins →
      broker.ledger.Once c joins)
    (hfirst : ∀ c r, c ≠ snapshotDetachedClient → acquiresFor c command = some r → n.broker.ledger.Untouched c →
      broker.ledger.Once c r.joins) :
    ({ n with broker, lastApplied := n.lastApplied + 1 } : SessionNode).Accounts cfg log where
  reachable := hb
  applied := (List.getElem?_eq_some_iff.1 hm).1
  untouched {c} hc hnone := by
    rw [acquired_succ hm, List.append_eq_nil_iff, Option.toList_eq_nil_iff] at hnone
    exact huntouched c hc hnone.2 (h.untouched hc hnone.1)
  once {c r} hc hregistered hone := by
    rw [acquired_succ hm, List.append_eq_singleton_iff, Option.toList_eq_nil_iff,
      Option.toList_eq_singleton_iff] at hone
    rcases hone with ⟨hnone, hr⟩ | ⟨hone, hnone⟩
    · exact hfirst c r hc hr (h.untouched hc hnone)
    · exact honce c r.joins hc hnone (h.once hc (fun hn => hregistered (hreg c hn)) hone)
  ids := h.ids
  detached session hmem hst := by
    obtain ⟨hne, hdetached⟩ := h.detached session hmem hst
    rw [acquired_succ hm]
    refine ⟨fun he => hne (List.append_eq_nil_iff.1 he).1, fun r hregistered hone => ?_⟩
    rw [List.append_eq_singleton_iff, Option.toList_eq_nil_iff] at hone
    rcases hone with ⟨hnone, _⟩ | ⟨hone, hnone⟩
    · exact absurd hnone hne
    · exact hclean _ (h.ids session hmem) hnone (hdetached r (fun hn => hregistered (hreg _ hn)) hone)
  snapshot := h.snapshot

theorem applyNext (h : n.Accounts cfg log) (env : Env) {command : LiveMutex.RaftCommand}
    (hm : log[n.lastApplied]? = some command) :
    ({ n with broker := n.broker.applyCommand env command, lastApplied := n.lastApplied + 1 } : SessionNode).Accounts
      cfg log := by
  have hs : n.broker.Sane := .reachable h.reachable
  -- an entry is an operation, and both are a lock request of the same clients
  have hop : ∀ op, op.registers = false → n.broker.applyCommand env command = n.broker.apply env op →
      (∀ c, op.acquires c = acquiresFor c command) →
      ({ n with broker := n.broker.applyCommand env command, lastApplied := n.lastApplied + 1 } : SessionNode).Accounts
        cfg log := by
    intro op hreg he hacq
    rw [he]
    refine h.next hm (h.reachable.apply env op) (fun c hn => Broker.apply_clients_none hs hreg hn)
      (fun c hc hnone => Broker.apply_untouched hs hc ((hacq c).trans hnone))
      (fun c hc hnone => Broker.apply_clean hs hc ((hacq c).trans hnone))
      (fun c joins hc hnone => Broker.apply_once hs hc ((hacq c).trans hnone))
      fun c r hc hr => Broker.apply_first hs hc ((hacq c).trans hr)
  cases command with
  | noop =>
    exact h.next hm h.reachable (fun _ hn => hn) (fun _ _ _ hu => hu) (fun _ _ _ hc => hc) (fun _ _ _ _ ho => ho)
      fun _ _ _ hr => by cases hr
  | clientRequest clientId request grant =>
    exact hop (.request clientId request (applyOverrides request grant)) rfl rfl fun _ => rfl
  | dropClient clientId => exact hop (.dropClient clientId) rfl rfl fun _ => rfl

theorem skipNext (h : n.Accounts cfg log) {command : LiveMutex.RaftCommand} (hm : log[n.lastApplied]? = some command) :
    ({ n with lastApplied := n.lastApplied + 1 } : SessionNode).Accounts cfg log :=
  h.next hm h.reachable (fun _ hn => hn) (fun _ _ _ hu => hu) (fun _ _ _ hc => hc) (fun _ _ _ _ ho => ho)
    fun _ _ _ _ hu => .inr hu.answered

/-- A snapshot of a longer part of the log is installed. -/
theorem installed {env : Env} {base : Broker} {snapshot : Nat × BrokerRaftSnapshot} (h : n.Accounts cfg log)
    (hbase : Broker.Reachable cfg base) (hs : n.snapshot = some snapshot) (hle : n.lastApplied ≤ snapshot.1)
    (ht : ∀ c, c ≠ snapshotDetachedClient → lockRequests c (log.take n.lastApplied) = [] →
      ∀ m ∈ base.ledger.past.notices, m.client ≠ c)
    (hn : n.installed env base snapshot = some n') : n'.Accounts cfg log := by
  obtain ⟨index, snap⟩ := snapshot
  obtain ⟨hindex, other, now, hother, rfl, hwaits⟩ := h.snapshot index snap hs
  have hprefix : ∀ c, lockRequests c (log.take n.lastApplied) <+: lockRequests c (log.take index) :=
    fun c => (List.take_prefix_take_left hle).filterMap _
  unfold SessionNode.installed at hn
  split at hn
  · rename_i broker hi
    cases hn
    have hgone : ∀ c : ClientId, broker.clients[c]? = none := fun c => by
      rw [Broker.install_clients hi]
      simp
    refine ⟨.install env now hbase hother hi, hindex, fun {c} hc hnone => ?_, fun {c _} _ hreg _ => absurd (hgone c) hreg,
      h.ids, fun session hmem hst => ⟨fun he => ?_, fun _ hreg _ => absurd (hgone _) hreg⟩, h.snapshot⟩
    · refine Broker.untouched_install (.reachable hother) hc (hwaits c hc hnone) (ht c hc ?_) hi
      exact List.prefix_nil.1 (hnone ▸ hprefix c)
    · exact (h.detached session hmem hst).1 (List.prefix_nil.1 (he ▸ hprefix _))
  · cases hn

/-- A session gets its client id. -/
theorem register (h : n.Accounts cfg log) {nodePrefix : Nat}
    (hid : lockRequests (n.nextSessionId nodePrefix) (log.take n.lastApplied) = []) (env : Env) :
    (n.register nodePrefix).Accounts cfg log := by
  have happ := h.apply env (.registerClientWithId (raftClientIdForNode nodePrefix n.nextClientSequence))
    (fun _ => rfl) fun c _ hn hne => ?_
  · exact { happ with }
  · change (n.broker.clients.insert (n.nextSessionId nodePrefix) _)[c]? ≠ none at hne
    rw [OrdMap.get_insert] at hne
    split at hne
    · rename_i he
      exact he ▸ hid
    · exact absurd hn hne

end SessionNode.Accounts

/-! ## Answers -/

theorem grantedLockUuid_of_award {r : Response} {g : Award} (h : r.award = some g) :
    grantedLockUuid r = some g.lockUuid := by
  unfold Response.award at h
  split at h
  all_goals first
    | (cases h; rfl)
    | cases h

theorem awarded_of_grantedLockUuid {r : Response} {u : String} (h : grantedLockUuid r = some u) :
    r.awarded.isSome = true := by
  unfold grantedLockUuid at h
  split at h
  all_goals first
    | rfl
    | cases h

/-- A message that awards a lock is a notice. -/
theorem notice_of_sent {b : Broker} {m : Sent} (hm : m ∈ b.sent) (ha : m.response.awarded.isSome = true) :
    ⟨m.client, m.response, m.locks.stakeAt⟩ ∈ b.ledger.past.notices := by
  obtain ⟨x, hx⟩ := Option.isSome_iff_exists.1 ha
  exact List.mem_filterMap.2 ⟨m, hm, by rw [Sent.notice, hx]; rfl⟩

theorem sent_of_notice {b : Broker} {m : Notice} (hm : m ∈ b.ledger.past.notices) :
    ∃ sent ∈ b.sent, sent.client = m.client ∧ sent.response = m.response := by
  obtain ⟨sent, hs, hn⟩ := List.mem_filterMap.1 hm
  obtain ⟨_, _, rfl⟩ := Option.map_eq_some_iff.1 hn
  exact ⟨sent, hs, rfl, rfl⟩

namespace SessionNode.Accounts

variable {cfg : BrokerConfig} {log : List LiveMutex.RaftCommand} {n : SessionNode} {session : EphemeralSession}

/-- A session detaches the lock it was told of: nothing is left on its client's handle. -/
theorem detach (h : n.Accounts cfg log) (env : Env) {k : Nat} {response : Response} {u : String} (hk : session ∈ n.sessions)
    (ha : n.answers session.clientId response = true) (hu : grantedLockUuid response = some u) :
    ({ n.setStage k session .detached with
        broker := n.broker.detachLockFromClient session.clientId u } : SessionNode).Accounts cfg log := by
  have hc := h.ids session hk
  simp only [answers, List.any_eq_true, Bool.and_eq_true, decide_eq_true_eq] at ha
  obtain ⟨m, hm, ⟨hclient, rfl⟩, _⟩ := ha
  have hnotice := notice_of_sent hm (awarded_of_grantedLockUuid hu)
  have hcall := h.call env (.detachLockFromClient session.clientId u) (fun _ => rfl) rfl
  have hne : lockRequests session.clientId (log.take n.lastApplied) ≠ [] :=
    fun hnone => (h.untouched hc hnone).told _ hnotice hclient
  refine { hcall with ids := fun session' hmem => ?_, detached := fun session' hmem hst => ?_ }
  · rcases List.mem_or_eq_of_mem_set hmem with hmem | rfl
    · exact h.ids session' hmem
    · exact hc
  · rcases List.mem_or_eq_of_mem_set hmem with hmem | rfl
    · exact hcall.detached session' hmem hst
    refine ⟨hne, fun r hreg hone => ?_⟩
    have hanswered : n.broker.ledger.Answered session.clientId := by
      refine (h.once hc (fun hn => hreg ?_) hone).resolve_left fun hw => hw.1.told _ hnotice hclient
      show (n.broker.apply env (.detachLockFromClient session.clientId u)).clients[session.clientId]? = none
      exact Broker.apply_clients_none (.reachable h.reachable) rfl hn
    obtain ⟨w, hw⟩ := hanswered.told
    have htold : ∀ m' ∈ n.broker.ledger.past.notices, m'.client = session.clientId → ∀ g, m'.response.award = some g →
        g.lockUuid = u := by
      intro m' hm' hc' g hg
      obtain ⟨g', hg', rfl⟩ := hw m' hm' hc'
      obtain ⟨g₀, hg₀, he⟩ := hw _ hnotice hclient
      obtain rfl := Option.some.inj (hg.symm.trans hg')
      exact he.symm.trans (Option.some.inj ((grantedLockUuid_of_award hg₀).symm.trans hu))
    have hledger : (n.broker.detachLockFromClient session.clientId u).ledger = _ := Broker.untrackHolder_ledger ..
    rw [hledger]
    refine ⟨hanswered.waits, fun {h'} hh => ?_⟩
    obtain ⟨h₀, hh₀, rfl⟩ := Ledger.handle_of_note_self hh
    obtain ⟨hpend, hheld⟩ := hanswered.handle hh₀
    refine ⟨hpend, fun w => Option.eq_none_iff_forall_ne_some.2 fun ko hko => ?_⟩
    dsimp only at hko
    rw [OrdMap.get_erase] at hko
    split at hko
    · cases hko
    · rename_i hne
      obtain ⟨m', hm', hc', t, ht⟩ := hheld hko
      exact hne (htold m' hm' hc' _ ht).symm

end SessionNode.Accounts

namespace SessionCluster

variable {ν : Type} [DecidableEq ν] {config : SessionConfig ν} {s s' : SessionCluster ν} {i : ν} {ev : SessionEvent ν}

omit [DecidableEq ν] in
/-- The accounts of every node. -/
def Accounts (config : SessionConfig ν) (s : SessionCluster ν) : Prop :=
  ∀ i, (s.nodes i).Accounts config.broker s.log

omit [DecidableEq ν] in
/-- A session that may drop its client on its node alone leaves the table as it is. -/
theorem Accounts.dropClient_locks (h : s.Accounts config) {env : Env} {session : EphemeralSession}
    (hk : session ∈ (s.nodes i).sessions) (hs : s.settled i session = true) :
    ((s.nodes i).broker.dropClient env session.clientId).locks = (s.nodes i).broker.locks := by
  have hc := (h i).ids session hk
  unfold settled at hs
  split at hs
  · rename_i hnone
    exact Broker.dropClient_locks_of_untouched ((h i).untouched hc hnone)
  · rename_i r hone
    rw [Bool.and_eq_true, Bool.or_eq_true, decide_eq_true_eq] at hs
    obtain ⟨hreg, hs⟩ := hs
    have hreg : (s.nodes i).broker.clients[session.clientId]? ≠ none := by
      rw [Std.ExtTreeMap.contains_iff_mem, OrdMap.mem_iff_get] at hreg
      exact Option.ne_none_iff_exists'.2 hreg
    rcases hs with hst | hs
    · exact Broker.dropClient_locks_of_clean hreg (((h i).detached session hk hst).2 r hreg hone)
    rw [Bool.and_eq_true, Bool.or_eq_true, Bool.not_eq_true'] at hs
    obtain ⟨hanswered, houtlives⟩ := hs
    rcases (h i).once hc hreg hone with ⟨hwait, hjoins⟩ | hans
    · -- who was told does not wait
      rw [hjoins] at hanswered
      obtain ⟨m, hm, hma⟩ := List.any_eq_true.1 (hanswered.resolve_left nofun)
      rw [Bool.and_eq_true, decide_eq_true_eq] at hma
      exact absurd hma.1 (hwait.told _ (notice_of_sent hm hma.2))
    · obtain ⟨handle, hh⟩ := Option.ne_none_iff_exists'.1 hreg
      obtain ⟨hpend, hheld⟩ := hans.handle hh
      refine Broker.dropClient_locks_of_kept hh hpend fun u ko hko k hkey l hl => ?_
      obtain ⟨m, hm, hmc, t, hmt⟩ := hheld hko
      obtain ⟨sent, hsent, hsc, hsr⟩ := sent_of_notice hm
      have hall := List.all_eq_true.1 houtlives sent hsent
      rw [hsc, hmc, hsr, hmt] at hall
      simp only [ne_eq, not_true_eq_false, decide_false, Bool.false_or, Option.all_some, List.all_eq_true] at hall
      simpa [hl] using hall k hkey
  · cases hs

theorem Accounts.setNode (h : s.Accounts config) {n : SessionNode} (hn : n.Accounts config.broker s.log) :
    (s.setNode i n).Accounts config :=
  forall_setNode (P := fun _ n => n.Accounts config.broker s.log) (fun j _ => h j) hn

omit [DecidableEq ν] in
theorem mem_of_sessionAt {n : SessionNode} {k : Nat} {stage : SessionStage} {session : EphemeralSession}
    (h : n.sessionAt k stage = some session) : session ∈ n.sessions :=
  List.mem_of_getElem? (Option.filter_eq_some_iff.1 h).1

omit [DecidableEq ν] in
theorem Accounts.dropLocally (h : s.Accounts config) {env : Env} {k : Nat} {session : EphemeralSession} :
    ((s.nodes i).dropLocally env k session).Accounts config.broker s.log :=
  ((h i).call env (.dropClient session.clientId) (fun _ => rfl) rfl).endSession k

omit [DecidableEq ν] in
theorem Accounts.restart (h : s.Accounts config) {n : SessionNode} (hs : s.restart config i = some n) :
    n.Accounts config.broker s.log := by
  have hup : (⟨.new config.broker, 0, (s.nodes i).lastIndex, (s.nodes i).snapshot,
      SessionNode.openSequence (s.nodes i).lastIndex, [], (s.nodes i).life + 1⟩ : SessionNode).Accounts
        config.broker s.log :=
    { reachable := .new, applied := Nat.zero_le _, untouched := fun _ _ => Broker.untouched_new _ _
      once := fun _ _ hone => by cases hone
      ids := fun _ hmem => by cases hmem
      detached := fun _ hmem => by cases hmem
      snapshot := (h i).snapshot }
  unfold SessionCluster.restart at hs
  dsimp only at hs
  split at hs
  · cases hs
    exact hup
  · rename_i snapshot hsnap
    refine hup.installed .new hsnap (Nat.zero_le _) (fun c _ _ m hm => ?_) hs
    exact (Broker.untouched_new config.broker c).told m hm

/-- **One event.** -/
theorem Accounts.step (h : s.Accounts config) (hok : s.sessionsSettle config i ev = true)
    (hs : s.step config i ev = some s') : s'.Accounts config := by
  cases ev with
  | commit command =>
    cases hs
    exact fun j => (h j).commit _
  | logEnds index =>
    cases (Option.ite_none_right_eq_some.1 hs).2
    exact h.setNode { h i with }
  | applyNext =>
    obtain ⟨command, hm, rfl⟩ := Option.map_eq_some_iff.1 (Option.ite_none_right_eq_some.1 hs).2
    exact h.setNode ((h i).applyNext _ hm)
  | skipNext =>
    obtain ⟨command, hm, rfl⟩ := Option.map_eq_some_iff.1 (Option.ite_none_right_eq_some.1 hs).2
    exact h.setNode ((h i).skipNext hm)
  | takeSnapshot now =>
    cases hs
    refine h.setNode { h i with snapshot := fun index snapshot he => ?_ }
    cases he
    exact ⟨(h i).applied, _, now, (h i).reachable, rfl, fun c hc hnone => ((h i).untouched hc hnone).waits⟩
  | installSnapshot from_ =>
    obtain ⟨snapshot, hf, hs⟩ := Option.bind_eq_some_iff.1 hs
    obtain ⟨n, hn, rfl⟩ := Option.map_eq_some_iff.1 hs
    obtain ⟨hsnap, hlt⟩ := Option.filter_eq_some_iff.1 hf
    have hwith : ({ s.nodes i with snapshot := some snapshot } : SessionNode).Accounts config.broker s.log :=
      { h i with snapshot := fun index snap he => (h from_).snapshot index snap (hsnap.trans he) }
    refine h.setNode (hwith.installed (h i).reachable rfl (le_of_lt (of_decide_eq_true hlt)) (fun c hc hnone => ?_) hn)
    exact ((h i).untouched hc hnone).told
  | restart =>
    obtain ⟨n, hn, rfl⟩ := Option.map_eq_some_iff.1 hs
    exact h.setNode (h.restart hn)
  | registerClient =>
    cases hs
    exact h.setNode ((h i).register (List.isEmpty_iff.1 hok) (config.env i 0))
  | runEphemeral request waitIsZero isAcquire =>
    cases hs
    refine h.setNode (((h i).register (List.isEmpty_iff.1 hok) (config.env i 0)).sessions fun session hmem => ?_)
    rcases List.mem_append.1 hmem with hmem | hmem
    · exact .inl hmem
    · rw [List.mem_singleton.1 hmem]
      exact .inr ⟨Broker.nextAvailableClientId_ne_zero _ _, SessionStage.noConfusion⟩
  | replayCached response =>
    cases hs
    refine h.setNode ?_
    unfold SessionNode.prepareCachedClientResponse
    split
    · rename_i lockUuid _
      exact (h i).call (config.env i 0) (.detachLockOwner lockUuid) (fun _ => rfl) rfl
    · exact h i
  | enqueueFailed k | dropDetached k | cleanupFailed k =>
    obtain ⟨session, _, rfl⟩ := Option.map_eq_some_iff.1 hs
    exact h.setNode h.dropLocally
  | enqueueDone k =>
    obtain ⟨session, hk, rfl⟩ := Option.map_eq_some_iff.1 hs
    exact h.setNode ((h i).setStage (mem_of_sessionAt hk) (by decide))
  | respond k outcome isShutdown =>
    obtain ⟨session, hk, rfl⟩ := Option.map_eq_some_iff.1 hs
    refine h.setNode ?_
    simp only [sessionsSettle, hk, Option.all_some, Bool.and_eq_true] at hok
    unfold SessionNode.respond
    split
    · exact h.dropLocally
    · rename_i lockUuid hcleanup
      -- the answer is one that was sent to this client
      unfold EphemeralSession.cleanup at hcleanup
      split at hcleanup
      · rename_i u hu
        cases hcleanup
        obtain ⟨response, rfl, hgranted⟩ := Option.bind_eq_some_iff.1 hu
        exact (h i).detach (config.env i 0) (mem_of_sessionAt hk) hok.1 hgranted
      · split at hcleanup <;> cases hcleanup
    · exact (h i).setStage (mem_of_sessionAt hk) (by decide)
  | cleanupDone k | abandon k =>
    obtain ⟨_, _, rfl⟩ := Option.map_eq_some_iff.1 hs
    exact h.setNode ((h i).endSession k)

omit [DecidableEq ν] in
theorem Accounts.start : (start config).Accounts config := fun _ =>
  { reachable := .new, applied := Nat.zero_le _, untouched := fun _ _ => Broker.untouched_new _ _
    once := fun _ _ hone => by cases hone
    ids := fun _ hmem => by cases hmem
    detached := fun _ hmem => by cases hmem
    snapshot := fun _ _ he => by cases he }

/-! ## The tables -/

theorem setNode_sameTable {n : SessionNode} (h : (s.nodes i).broker.SameTable n.broker) (j : ν) :
    (s.nodes j).broker.SameTable ((s.setNode i n).nodes j).broker :=
  forall_setNode (P := fun j n => (s.nodes j).broker.SameTable n.broker) (fun _ _ => .of_locks rfl) h j

/-- What happens on one node happens to no other. -/
theorem step_nodes_ne (hs : s.step config i ev = some s') {j : ν} (hj : j ≠ i) : s'.nodes j = s.nodes j := by
  have hset : ∀ n : SessionNode, (s.setNode i n).nodes j = s.nodes j := fun n => Function.update_of_ne hj ..
  have hmap : ∀ {α : Type} {o : Option α} (f : α → SessionNode), (o.map fun a => s.setNode i (f a)) = some s' →
      s'.nodes j = s.nodes j := by
    intro α o f hs
    obtain ⟨a, _, rfl⟩ := Option.map_eq_some_iff.1 hs
    exact hset (f a)
  cases ev with
  | commit =>
    cases hs
    rfl
  | takeSnapshot | registerClient | runEphemeral | replayCached =>
    cases hs
    exact hset _
  | logEnds =>
    cases (Option.ite_none_right_eq_some.1 hs).2
    exact hset _
  | applyNext | skipNext => exact hmap _ (Option.ite_none_right_eq_some.1 hs).2
  | installSnapshot =>
    obtain ⟨_, _, hs⟩ := Option.bind_eq_some_iff.1 hs
    exact hmap id hs
  | restart => exact hmap id hs
  | _ => exact hmap _ hs

/-- An event that brings neither the log nor a snapshot to a broker leaves the tables as they are. -/
theorem Accounts.step_sameTable (h : s.Accounts config) (hok : s.sessionsSettle config i ev = true)
    (hs : s.step config i ev = some s') (hev : ev.replicates = false) (j : ν) :
    (s.nodes j).broker.SameTable (s'.nodes j).broker := by
  have hdrop : ∀ {k : Nat} {stage : SessionStage} {session : EphemeralSession},
      (s.nodes i).sessionAt k stage = some session → s.settled i session = true →
      (s.nodes i).broker.SameTable ((s.nodes i).dropLocally (s.env config i) k session).broker :=
    fun hk hset => .of_locks (h.dropClient_locks (mem_of_sessionAt hk) hset)
  have hkeep : ∀ {n : SessionNode}, n.broker = (s.nodes i).broker →
      (s.nodes j).broker.SameTable ((s.setNode i n).nodes j).broker :=
    fun hn => setNode_sameTable (by rw [hn]; exact .of_locks rfl) j
  cases ev with
  | applyNext => cases hev
  | installSnapshot => cases hev
  | restart => cases hev
  | commit command =>
    cases hs
    exact .of_locks rfl
  | logEnds index =>
    cases (Option.ite_none_right_eq_some.1 hs).2
    exact hkeep rfl
  | skipNext =>
    obtain ⟨_, _, rfl⟩ := Option.map_eq_some_iff.1 (Option.ite_none_right_eq_some.1 hs).2
    exact hkeep rfl
  | takeSnapshot now =>
    cases hs
    exact hkeep rfl
  | registerClient | runEphemeral =>
    cases hs
    exact setNode_sameTable (by exact .of_locks rfl) j
  | replayCached response =>
    cases hs
    refine setNode_sameTable ?_ j
    unfold SessionNode.prepareCachedClientResponse
    split
    · exact Broker.detachLockOwner_sameTable _
    · exact .of_locks rfl
  | enqueueFailed k | dropDetached k | cleanupFailed k =>
    obtain ⟨session, hk, rfl⟩ := Option.map_eq_some_iff.1 hs
    exact setNode_sameTable (hdrop hk (by simpa [sessionsSettle, hk] using hok)) j
  | respond k outcome isShutdown =>
    obtain ⟨session, hk, rfl⟩ := Option.map_eq_some_iff.1 hs
    refine setNode_sameTable ?_ j
    simp only [sessionsSettle, hk, Option.all_some, Bool.and_eq_true, Bool.or_eq_true, decide_eq_true_eq] at hok
    unfold SessionNode.respond
    split
    · rename_i hcleanup
      exact hdrop hk (hok.2.resolve_left fun hne => hne hcleanup)
    · exact .of_locks (Broker.modifyClient_locks ..)
    · exact .of_locks rfl
  | enqueueDone k | cleanupDone k | abandon k =>
    obtain ⟨_, _, rfl⟩ := Option.map_eq_some_iff.1 hs
    exact hkeep rfl

theorem Run.accounts {events : List (ν × SessionEvent ν)} (h : Run config (sessionsSettle config) events s) :
    s.Accounts config := by
  refine Trace.inv h (fun s e s' _ hs hi => ?_) Accounts.start
  obtain ⟨hok, hs⟩ := stepIf_eq_some.1 hs
  exact hi.step hok hs

/-- **Sessions leave the tables alone**, in every run in which a client is dropped on
its node alone only before the node has applied its lock request, or once the request
is refused, or granted and the lock detached or to outlive the client. Over any part of
such a run in which a node applies no entry, installs no snapshot and does not start
again, its holders, its waiters and its counters stay what they are. -/
theorem Run.sessions_keep_tables {events more : List (ν × SessionEvent ν)}
    (h : Run config (sessionsSettle config) events s)
    (hmore : Trace (fun s e s' => s.stepIf config (sessionsSettle config) e = some s') s more s') (j : ν)
    (hj : ∀ e ∈ more, e.1 = j → e.2.replicates = false) : (s.nodes j).broker.SameTable (s'.nodes j).broker := by
  have haccounts := h.accounts
  clear h
  induction hmore with
  | nil s => exact .of_locks rfl
  | @cons s s₁ s₂ e more hs _ ih =>
    obtain ⟨hok, hs⟩ := stepIf_eq_some.1 hs
    refine .trans ?_ (ih (fun e' he' => hj e' (List.mem_cons_of_mem _ he')) (haccounts.step hok hs))
    by_cases he : e.1 = j
    · exact haccounts.step_sameTable hok hs (hj e List.mem_cons_self he) j
    · exact .of_locks (by rw [step_nodes_ne hs (Ne.symm he)])

namespace Sample

open LiveMutex.Sample (lock)

/-- A session asks for a key, gets it, and detaches it from its client. -/
def granted : List (Bool × SessionEvent Bool) :=
  let first := raftClientIdForNode 1 1
  [(false, .runEphemeral (lock "a" "k") false true), (false, .commit (.clientRequest first (lock "a" "k") none)),
   (false, .logEnds 1), (false, .applyNext), (false, .enqueueDone 0),
   (false, .respond 0 (some (.lock "a" "k" true 0 (some (deterministicLockUuid 1)) (some 4000000000000006) (some 0) none))
     false)]

/-- It drops its client; another asks for the key, waits in vain, and starts to clean up. -/
def timedOut : List (Bool × SessionEvent Bool) :=
  granted ++ [(false, .dropDetached 0),
   (false, .runEphemeral (lock "b" "k") false true), (false, .commit (.clientRequest second (lock "b" "k") none)),
   (false, .logEnds 2), (false, .applyNext), (false, .enqueueDone 0), (false, .respond 0 none false)]

/-- How many wait for a key on a node. -/
def waiting (s : SessionCluster Bool) (i : Bool) (key : String) : Option Nat :=
  (s.nodes i).broker.locks[key]?.map (·.queue.entries.length)

end Sample

/-- The client of a session that got its lock is dropped. -/
theorem Run.sessions_keep_tables_granted : ∃ s s', Run Sample.pair (sessionsSettle Sample.pair) Sample.granted s ∧
    s.step Sample.pair false (.dropDetached 0) = some s' ∧
    (s.nodes false).broker.SameTable (s'.nodes false).broker := by
  obtain ⟨s, hrun, hp⟩ : ∃ s, Run Sample.pair (sessionsSettle Sample.pair) Sample.granted s ∧
      ((s.step Sample.pair false (.dropDetached 0)).isSome &&
        s.sessionsSettle Sample.pair false (.dropDetached 0)) = true := exists_of_run (by decide +kernel)
  rw [Bool.and_eq_true, Option.isSome_iff_exists] at hp
  obtain ⟨⟨s', hs⟩, hok⟩ := hp
  refine ⟨s, s', hrun, hs, hrun.sessions_keep_tables (.single (a := (false, .dropDetached 0)) ?_) false ?_⟩
  · exact (if_pos hok).trans hs
  · intro e he _
    rw [List.mem_singleton.1 he]
    rfl

/-- The clean-up of a session that timed out fails, and the leader drops its waiter by
itself. -/
theorem Run.session_drops_waiter : ∃ s s', Run Sample.pair (sessionsSettle Sample.pair) Sample.timedOut s ∧
    s.step Sample.pair false (.cleanupFailed 0) = some s' ∧
    (SessionEvent.cleanupFailed 0 : SessionEvent Bool).replicates = false ∧
    ¬(s.nodes false).broker.SameTable (s'.nodes false).broker := by
  obtain ⟨s, hrun, hp⟩ : ∃ s, Run Sample.pair (sessionsSettle Sample.pair) Sample.timedOut s ∧
      (s.step Sample.pair false (.cleanupFailed 0)).any (fun s' =>
        Sample.waiting s false "k" = some 1 ∧ Sample.waiting s' false "k" = some 0) = true :=
    exists_of_run (by decide +kernel)
  rw [Option.any_eq_true] at hp
  obtain ⟨s', hs, hp⟩ := hp
  refine ⟨s, s', hrun, hs, rfl, fun hsame => ?_⟩
  have hlen := congrArg (fun locks : LockTable => locks["k"]?.map (·.queue.entries.length)) hsame
  simp only [Std.ExtTreeMap.getElem?_map, Option.map_map] at hlen
  have hwaits : Sample.waiting s' false "k" = Sample.waiting s false "k" := hlen
  rw [decide_eq_true_eq, hwaits] at hp
  exact absurd (hp.1.symm.trans hp.2) (by decide)

end SessionCluster

end LiveMutex.Raft
