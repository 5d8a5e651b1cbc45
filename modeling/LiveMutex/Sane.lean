/-
What is known of every key of a broker at every moment, also in the middle of
an operation: it is held in one way at a time, its composite waiters are well
formed, and its waiters are queued under their own request uuids.
-/
import LiveMutex.CompositeWait
import LiveMutex.Exclusion

namespace LiveMutex

/-- Every waiter is queued under its own request uuid. -/
def LockState.Keyed (l : LockState) : Prop := ∀ e ∈ l.queue.entries, e.1 = e.2.requestUuid

namespace LockState.Keyed

variable {l : LockState}

theorem shrink {l' : LockState} (h : l.Keyed) (hq : ∀ e ∈ l'.queue.entries, e ∈ l.queue.entries) : l'.Keyed :=
  fun e he => h e (hq e he)

theorem push (h : l.Keyed) (p : PendingRequest) : (l.push p).Keyed := by
  intro e he
  rcases LinkedQueue.mem_pushBack he with he | rfl
  · exact h e he
  · rfl

theorem kept (cfg : BrokerConfig) : Kept cfg (fun _ => True) fun _ l => l.Keyed where
  fresh hf e he := by rw [hf.queue] at he; cases he
  setMax h _ _ := h
  stamp h _ := h
  take h _ _ := h.shrink fun e he => by simpa using he
  pop h := h.shrink fun e he => List.mem_of_mem_tail he
  push h _ _ := h.push _
  pushFirst h _ _ e he := by
    rcases LinkedQueue.mem_pushFront he with he | rfl
    · exact h e he
    · rfl
  moved _ _ _ _ h := h.push _
  removeWaiter h := h.shrink fun e he => List.mem_of_mem_filter he
  removeForKind h := h.shrink fun e he => by simpa using he
  wipe h := h
  detachOwner h := h

theorem restore (key : String) (cap : Nat) (now : Instant) : ((l.snapshot key).restore cap now).Keyed := by
  intro e he
  obtain ⟨e', _, rfl⟩ := mem_restore_queue he
  rfl

end LockState.Keyed

/-- What holds of the table throughout an operation. -/
structure Broker.Sane (b : Broker) : Prop where
  sound : AllLocks (fun _ l => l.Sound b.config) b.locks
  composites : AllLocks LockState.CompositesWf b.locks
  keyed : AllLocks (fun _ l => l.Keyed) b.locks

namespace Broker.Sane

variable {b b' : Broker}

theorem does {env : Env} {given : Option String} {ok : Action → Prop} (hb : b.Sane)
    (h : b.Does env given ok b') : b'.Sane where
  sound := by
    rw [h.config]
    exact (LockState.Sound.kept b.config).does h (fun a _ => a.queues_true) hb.sound
  composites := (LockState.CompositesWf.kept b.config).does h (fun a _ => a.queues_true) hb.composites
  keyed := (LockState.Keyed.kept b.config).does h (fun a _ => a.queues_true) hb.keyed

theorem reachable {cfg : BrokerConfig} (h : Reachable cfg b) : b.Sane where
  sound := by
    rw [h.config]
    exact (LockState.Sound.kept cfg).reachable (fun key _ now h => h.restore key now) h
  composites := (LockState.CompositesWf.kept cfg).reachable (fun _ _ now h => h.restore now) h
  keyed := (LockState.Keyed.kept cfg).reachable (fun key _ now _ => .restore key _ now) h

theorem congr (h : b.Sane) (hl : b'.locks = b.locks) (hc : b'.config = b.config) : b'.Sane where
  sound := by rw [hl, hc]; exact h.sound
  composites := by rw [hl]; exact h.composites
  keyed := by rw [hl]; exact h.keyed

theorem tryGrantNext (hs : b.Sane) (env : Env) (key : String) : (b.tryGrantNext env key).Sane := by
  have hdoes : b.Does env none Action.Cascade (b.tryGrantNext env key) := tryGrantNext_does env b key
  exact hs.does hdoes

end Broker.Sane

end LiveMutex
