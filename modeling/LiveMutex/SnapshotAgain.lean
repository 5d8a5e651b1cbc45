/-
A snapshot goes from broker to broker without loss: installed and taken again
(`snapshot_again`), it is what it was for every key, down to the order of the waiters.
-/
import LiveMutex.Sample
import LiveMutex.Sane

namespace LiveMutex

/-- A time to live that was rounded once comes back as it is. -/
theorem PendingRequest.snapshot_restored (p : PendingRequest) : p.restored.snapshot = p.snapshot := by
  have hms : ∀ d : Duration, durationMsU64 (.fromMillis (durationMsU64 d)) = durationMsU64 d := by
    intro d
    simp only [durationMsU64, Duration.asMillis, Duration.fromMillis]
    omega
  simp [restored, BrokerRaftPendingRequestSnapshot.restore, snapshot, Function.comp_def, hms]

/-- The lock as it is exported once it was installed: its counter is no less than the
tokens under it. -/
def BrokerRaftLockSnapshot.raised (cap : Nat) (s : BrokerRaftLockSnapshot) : BrokerRaftLockSnapshot :=
  { s with fencingCounter := (s.lock cap).fencingCounter }

namespace LockState

variable {l : LockState} (key : String) (cap : Nat) (now : Instant)

theorem restore_entries (hk : l.Keyed) :
    ((l.snapshot key).restore cap now).queue.entries = l.queue.entries.map fun e => (e.1, e.2.restored) := by
  have hkeys : l.queue.entries.map (fun e => e.2.requestUuid) = l.queue.entries.map Prod.fst :=
    List.map_congr_left fun e he => (hk e he).symm
  rw [restore_queue, LinkedQueue.entries_foldl_pushBack _ _ _ _ (by simpa [hkeys] using l.queue.nodup)]
  exact List.map_congr_left fun e he => by rw [hk e he]

theorem snapshot_restore {cfg : BrokerConfig} (hs : l.Sound cfg) (hk : l.Keyed) :
    ((l.snapshot key).restore cfg.cap now).snapshot key = (l.snapshot key).raised cfg.cap := by
  have hqueue := restore_entries key cfg.cap now hk
  have hmax : ((l.snapshot key).restore cfg.cap now).max = l.max := by
    have := hs.max_pos
    have := hs.max_le
    rw [restore_eq]
    show Nat.max (Nat.min (Nat.max l.max 1) cfg.cap) 1 = l.max
    simp only [Nat.max_def, Nat.min_def]
    repeat' split
    all_goals omega
  have hidle : ((l.snapshot key).restore cfg.cap now).isIdle = l.isIdle := by
    simp only [isIdle, restore_exclusiveHolders, restore_readers, restore_writer, LinkedQueue.isEmpty, hqueue,
      OrdMap.isEmpty_map, Option.isNone_map, List.isEmpty_map]
  have hcounter : ((l.snapshot key).restore cfg.cap now).fencingCounter =
      ((l.snapshot key).lock cfg.cap).fencingCounter := by rw [restore_eq]
  rw [snapshot, hmax, hidle, hqueue, hcounter, restore_exclusiveHolders, restore_readers, restore_writer]
  simp only [Std.ExtTreeMap.toList_map, List.map_map, Function.comp_def, Option.map_map,
    PendingRequest.snapshot_restored, BrokerRaftLockSnapshot.raised, snapshot]

end LockState

/-- **A snapshot installed and taken again is the same**, for every key of every reachable
broker; only a counter below its holders' tokens is raised to them. -/
theorem Broker.Reachable.snapshot_again {cfg : BrokerConfig} {env : Env} {b other b' : Broker} {now : Instant}
    (h : Reachable cfg other) (hcfg : b.config = cfg)
    (hi : b.installRaftSnapshot env (other.snapshotForRaft now) = .ok b') (now' : Instant) :
    (b'.snapshotForRaft now').locks = (other.snapshotForRaft now).locks.map (·.raised cfg.cap) := by
  have hs : other.Sane := .reachable h
  have hlocks := (installBrokerRaftSnapshot_locks (installRaftSnapshot_ok hi).2).1
  simp only [snapshotForRaft, hlocks, Std.ExtTreeMap.toList_map, List.map_map, hcfg]
  refine List.map_congr_left fun kl hkl => ?_
  have hget := OrdMap.mem_toList.1 hkl
  exact LockState.snapshot_restore kl.1 _ (h.config ▸ hs.sound _ _ hget) (hs.keyed _ _ hget)

/-- One client holds the key and another waits for it. -/
def Sample.waiting : Broker := Sample.after [Sample.ask 1 (Sample.lock "r" "a"), Sample.ask 2 (Sample.lock "s" "a")]

theorem Broker.Reachable.snapshot_again_waiting :
    ∃ b', (Broker.new Sample.config).installRaftSnapshot Sample.env (Sample.waiting.snapshotForRaft 0) = .ok b' ∧
      (b'.snapshotForRaft 5).locks = (Sample.waiting.snapshotForRaft 0).locks.map (·.raised 10) := by
  have hok : ((Broker.new Sample.config).installRaftSnapshot Sample.env (Sample.waiting.snapshotForRaft 0)).isOk =
      true := by decide +kernel
  cases h : (Broker.new Sample.config).installRaftSnapshot Sample.env (Sample.waiting.snapshotForRaft 0) with
  | error e => rw [h] at hok; cases hok
  | ok b' => exact ⟨b', rfl, snapshot_again (Sample.reachable_after _) rfl h 5⟩

end LiveMutex
