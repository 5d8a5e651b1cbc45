/-
What a snapshot of the broker brings back: the entry of every key, with its
holders detached from their clients, and nothing else of the table.
-/
import LiveMutex.Snapshot
import LiveMutex.StateFacts

namespace LiveMutex

/-! ## One key -/

namespace LockState

variable (l : LockState) (key : String) (cap : Nat) (now : Instant)

/-- The idle stamp is the only difference. -/
theorem restore_eq (s : BrokerRaftLockSnapshot) :
    s.restore cap now = { s.lock cap with timestampEmptied := (s.restore cap now).timestampEmptied } := by
  unfold BrokerRaftLockSnapshot.restore
  dsimp only
  split <;> rfl

theorem restore_exclusiveHolders :
    ((l.snapshot key).restore cap now).exclusiveHolders =
      l.exclusiveHolders.map fun _ h => { h with client := snapshotDetachedClient } := by
  rw [restore_eq]
  simp only [BrokerRaftLockSnapshot.lock, snapshot, List.foldl_map]
  exact OrdMap.foldl_insert_toList l.exclusiveHolders fun _ h => { h with client := snapshotDetachedClient }

theorem restore_readers :
    ((l.snapshot key).restore cap now).readers =
      l.readers.map fun u h => { client := snapshotDetachedClient, fencingToken := h.fencingToken, lockUuid := u } := by
  rw [restore_eq]
  simp only [BrokerRaftLockSnapshot.lock, snapshot, List.foldl_map]
  exact OrdMap.foldl_insert_toList l.readers fun u (h : RwHolder) =>
    ({ client := snapshotDetachedClient, fencingToken := h.fencingToken, lockUuid := u } : RwHolder)

theorem restore_writer :
    ((l.snapshot key).restore cap now).writer =
      l.writer.map fun w => { w with client := snapshotDetachedClient } := by
  rw [restore_eq]
  simp only [BrokerRaftLockSnapshot.lock, snapshot, Option.map_map]
  rfl

theorem restore_max (hcap : 1 ≤ cap) :
    1 ≤ ((l.snapshot key).restore cap now).max ∧ ((l.snapshot key).restore cap now).max ≤ cap := by
  rw [restore_eq]
  exact ⟨Nat.le_max_right _ _, Nat.max_le.2 ⟨Nat.min_le_right _ _, hcap⟩⟩

theorem restore_max_one {l : LockState} (h : l.max = 1) (key : String) {cap : Nat} (hcap : 1 ≤ cap) (now : Instant) :
    ((l.snapshot key).restore cap now).max = 1 := by
  rw [restore_eq]
  show Nat.max (Nat.min (Nat.max l.max 1) cap) 1 = 1
  rw [h, show Nat.min (Nat.max 1 1) cap = 1 from Nat.min_eq_left hcap]
  rfl

end LockState

/-- The waiter as it comes back: its time to live in whole milliseconds. -/
def PendingRequest.restored (p : PendingRequest) : PendingRequest := p.snapshot.restore

namespace LockState

variable (l : LockState) (key : String) (cap : Nat) (now : Instant)

theorem restore_queue :
    ((l.snapshot key).restore cap now).queue =
      l.queue.entries.foldl (fun q e => (q.pushBack e.2.requestUuid e.2.restored).1) .empty := by
  rw [restore_eq]
  simp only [BrokerRaftLockSnapshot.lock, snapshot, List.foldl_map]
  rfl

variable {l key cap now}

/-- Every waiter that comes back was there. -/
theorem mem_restore_queue {e : String × PendingRequest}
    (h : e ∈ ((l.snapshot key).restore cap now).queue.entries) :
    ∃ e' ∈ l.queue.entries, e = (e'.2.requestUuid, e'.2.restored) := by
  rw [restore_queue] at h
  rcases LinkedQueue.mem_foldl_pushBack (fun e : String × PendingRequest => e.2.requestUuid)
    (fun e => e.2.restored) _ _ h with h | h
  · simp at h
  · exact h

end LockState

/-! ## The broker -/

namespace Broker

variable {env : Env} {b b' : Broker} {now : Instant}

theorem installDeadline_eq {next next' : Broker} {d : BrokerRaftDeadlineSnapshot}
    (h : installDeadline env now next d = .ok next') :
    next.snapshotDeadlineMatchesState d = true ∧
    next' = { next with deadlineSeq := next'.deadlineSeq, deadlines := next'.deadlines } := by
  unfold installDeadline at h
  split at h
  · cases h
  · rename_i hm
    cases h
    exact ⟨by simpa using hm, rfl⟩

theorem installDeadlines_eq : ∀ {ds : List BrokerRaftDeadlineSnapshot} {next next' : Broker},
    ds.foldlM (installDeadline env now) next = .ok next' →
    next' = { next with deadlineSeq := next'.deadlineSeq, deadlines := next'.deadlines }
  | [], next, next', h => by cases h; rfl
  | d :: ds, next, next', h => by
    rw [List.foldlM_cons] at h
    cases hd : installDeadline env now next d with
    | error e => rw [hd] at h; cases h
    | ok mid =>
      rw [hd] at h
      have hrest := installDeadlines_eq h
      rw [(installDeadline_eq hd).2] at hrest
      exact hrest

theorem installLocks_locks (now : Instant) (ss : List BrokerRaftLockSnapshot) (next : Broker) :
    (ss.foldl (installLock now) next).locks =
      ss.foldl (fun t s => t.insert s.key (s.restore next.config.cap now)) next.locks ∧
    (ss.foldl (installLock now) next).config = next.config := by
  induction ss generalizing next with
  | nil => exact ⟨rfl, rfl⟩
  | cons s ss ih => exact ih (installLock now next s)

/-- The broker a snapshot is installed into, before its locks and deadlines. -/
def installBase (b : Broker) (snapshot : BrokerRaftSnapshot) : Broker :=
  { BrokerState.new b.config with
    ttlEvictionsTotal := snapshot.metrics.ttlEvictionsTotal
    concurrencyCapClampsTotal := snapshot.metrics.concurrencyCapClampsTotal
    fencingWatermark := snapshot.metrics.fencingWatermark
    idleKeysPrunedTotal := snapshot.metrics.idleKeysPrunedTotal
    reads := b.reads + 1 + snapshot.locks.length
    sent := b.sent
    grants := b.grants }

theorem installBrokerRaftSnapshot_eq (s : BrokerRaftSnapshot) :
    b.installBrokerRaftSnapshot env s =
      s.deadlines.foldlM (installDeadline env (env.now b.reads))
        (s.locks.foldl (installLock (env.now b.reads)) (b.installBase s)) := rfl

/-- Every key of the snapshot, restored. -/
theorem installLocks_map (other : Broker) (now' : Instant) :
    ((other.snapshotForRaft now).locks.foldl (installLock now') (b.installBase (other.snapshotForRaft now))).locks =
      other.locks.map fun key l => (l.snapshot key).restore b.config.cap now' := by
  refine (installLocks_locks now' _ _).1.trans ?_
  simp only [snapshotForRaft, List.foldl_map]
  exact OrdMap.foldl_insert_toList other.locks fun key l => (l.snapshot key).restore b.config.cap now'

/-- The table of a restored broker: every key of the snapshot, restored. -/
theorem installBrokerRaftSnapshot_locks {other : Broker}
    (h : b.installBrokerRaftSnapshot env (other.snapshotForRaft now) = .ok b') :
    b'.locks = (other.locks.map fun key l => (l.snapshot key).restore b.config.cap (env.now b.reads)) ∧
    b'.config = b.config := by
  have heq := installDeadlines_eq h
  rw [heq]
  exact ⟨installLocks_map other _, (installLocks_locks _ _ _).2⟩

theorem installRaftSnapshot_ok {s : BrokerRaftSnapshot} (h : b.installRaftSnapshot env s = .ok b') :
    validateBrokerRaftSnapshot s = .ok () ∧ b.installBrokerRaftSnapshot env s = .ok b' := by
  unfold installRaftSnapshot at h
  cases hv : validateBrokerRaftSnapshot s with
  | error e => rw [hv] at h; cases h
  | ok u => rw [hv] at h; exact ⟨rfl, h⟩

end Broker

end LiveMutex
