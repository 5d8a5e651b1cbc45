/-
What the broker's small operations change, as record updates: each rewrites
to the broker with one or two fields replaced, so that any other field reads
through. The blocks the handlers are made of inherit it, by one lemma a block
and field.
-/
import LiveMutex.Lifecycle

namespace LiveMutex

namespace Broker

variable (env : Env) (b : Broker)

/-! ## The operations as record updates -/

theorem observeFencingToken_eq (token : Nat) :
    b.observeFencingToken token = { b with fencingWatermark := Nat.max b.fencingWatermark token } := by
  unfold observeFencingToken
  split
  · rename_i h
    rw [show Nat.max b.fencingWatermark token = token from max_eq_right (Nat.le_of_lt h)]
  · rename_i h
    rw [show Nat.max b.fencingWatermark token = b.fencingWatermark from max_eq_left (not_lt.1 h)]

theorem modifyClient_eq (client : ClientId) (f : ClientHandle → ClientHandle) :
    b.modifyClient client f = { b with clients := (b.modifyClient client f).clients } := by
  unfold modifyClient
  split <;> rfl

theorem modifyClient_clients (client a : ClientId) (f : ClientHandle → ClientHandle) :
    (b.modifyClient client f).clients[a]? =
      if client = a then b.clients[client]?.map f else b.clients[a]? := by
  unfold modifyClient setClient
  split
  · rename_i h
    split
    · rename_i he; subst he; simp [h]
    · rfl
  · rename_i h
    rw [OrdMap.get_insert, h]
    rfl

theorem resolveMax_fst (currentLockMax : Nat) (requested : Option Nat) :
    (b.resolveMax currentLockMax requested).1 = { b with
      concurrencyCapClampsTotal := (b.resolveMax currentLockMax requested).1.concurrencyCapClampsTotal } := by
  unfold resolveMax
  split <;> try rfl
  dsimp only
  split <;> rfl

theorem unwrapOrNewV4_fst (given : Option String) :
    (b.unwrapOrNewV4 env given).1 = { b with reads := (b.unwrapOrNewV4 env given).1.reads } := by
  unfold unwrapOrNewV4
  split <;> rfl

theorem scheduleDeadline_eq (ttl : Option Duration) (lockUuid : String) (keys : List String)
    (kind : RwHoldKind) (client : ClientId) :
    b.scheduleDeadline env ttl lockUuid keys kind client = { b with
      reads := (b.scheduleDeadline env ttl lockUuid keys kind client).reads
      deadlineSeq := (b.scheduleDeadline env ttl lockUuid keys kind client).deadlineSeq
      deadlines := (b.scheduleDeadline env ttl lockUuid keys kind client).deadlines } := by
  unfold scheduleDeadline
  split
  · rfl
  · split
    · rfl
    · split <;> rfl

/-! ## What reads through them -/

@[simp] theorem setLock_locks (key : String) (l : LockState) : (b.setLock key l).locks = b.locks.insert key l := rfl
@[simp] theorem setLock_config (key : String) (l : LockState) : (b.setLock key l).config = b.config := rfl
@[simp] theorem setLock_clients (key : String) (l : LockState) : (b.setLock key l).clients = b.clients := rfl
@[simp] theorem setLock_deadlines (key : String) (l : LockState) : (b.setLock key l).deadlines = b.deadlines := rfl
@[simp] theorem setLock_reads (key : String) (l : LockState) : (b.setLock key l).reads = b.reads := rfl
@[simp] theorem setLock_sent (key : String) (l : LockState) : (b.setLock key l).sent = b.sent := rfl
@[simp] theorem setLock_grants (key : String) (l : LockState) : (b.setLock key l).grants = b.grants := rfl
@[simp] theorem setLock_fencingWatermark (key : String) (l : LockState) :
    (b.setLock key l).fencingWatermark = b.fencingWatermark := rfl

@[simp] theorem modifyClient_locks (c : ClientId) (f : ClientHandle → ClientHandle) :
    (b.modifyClient c f).locks = b.locks := by
  rw [modifyClient_eq]
@[simp] theorem modifyClient_config (c : ClientId) (f : ClientHandle → ClientHandle) :
    (b.modifyClient c f).config = b.config := by
  rw [modifyClient_eq]
@[simp] theorem modifyClient_deadlines (c : ClientId) (f : ClientHandle → ClientHandle) :
    (b.modifyClient c f).deadlines = b.deadlines := by
  rw [modifyClient_eq]
@[simp] theorem modifyClient_reads (c : ClientId) (f : ClientHandle → ClientHandle) :
    (b.modifyClient c f).reads = b.reads := by
  rw [modifyClient_eq]
@[simp] theorem modifyClient_sent (c : ClientId) (f : ClientHandle → ClientHandle) :
    (b.modifyClient c f).sent = b.sent := by
  rw [modifyClient_eq]
@[simp] theorem modifyClient_grants (c : ClientId) (f : ClientHandle → ClientHandle) :
    (b.modifyClient c f).grants = b.grants := by
  rw [modifyClient_eq]
@[simp] theorem modifyClient_fencingWatermark (c : ClientId) (f : ClientHandle → ClientHandle) :
    (b.modifyClient c f).fencingWatermark = b.fencingWatermark := by
  rw [modifyClient_eq]

@[simp] theorem observeFencingToken_locks (t : Nat) : (b.observeFencingToken t).locks = b.locks := by
  rw [observeFencingToken_eq]
@[simp] theorem observeFencingToken_config (t : Nat) : (b.observeFencingToken t).config = b.config := by
  rw [observeFencingToken_eq]
@[simp] theorem observeFencingToken_clients (t : Nat) : (b.observeFencingToken t).clients = b.clients := by
  rw [observeFencingToken_eq]
@[simp] theorem observeFencingToken_deadlines (t : Nat) :
    (b.observeFencingToken t).deadlines = b.deadlines := by
  rw [observeFencingToken_eq]
@[simp] theorem observeFencingToken_reads (t : Nat) : (b.observeFencingToken t).reads = b.reads := by
  rw [observeFencingToken_eq]
@[simp] theorem observeFencingToken_sent (t : Nat) : (b.observeFencingToken t).sent = b.sent := by
  rw [observeFencingToken_eq]
@[simp] theorem observeFencingToken_grants (t : Nat) : (b.observeFencingToken t).grants = b.grants := by
  rw [observeFencingToken_eq]

@[simp] theorem observeFencingToken_fencingWatermark (t : Nat) :
    (b.observeFencingToken t).fencingWatermark = Nat.max b.fencingWatermark t := by
  rw [observeFencingToken_eq]

@[simp] theorem send_locks (c : ClientId) (r : Response) : (b.send c r).locks = b.locks := rfl
@[simp] theorem send_config (c : ClientId) (r : Response) : (b.send c r).config = b.config := rfl
@[simp] theorem send_clients (c : ClientId) (r : Response) : (b.send c r).clients = b.clients := rfl
@[simp] theorem send_deadlines (c : ClientId) (r : Response) : (b.send c r).deadlines = b.deadlines := rfl
@[simp] theorem send_reads (c : ClientId) (r : Response) : (b.send c r).reads = b.reads := rfl
@[simp] theorem send_grants (c : ClientId) (r : Response) : (b.send c r).grants = b.grants := rfl
@[simp] theorem send_fencingWatermark (c : ClientId) (r : Response) :
    (b.send c r).fencingWatermark = b.fencingWatermark := rfl

@[simp] theorem send_sent (c : ClientId) (r : Response) :
    (b.send c r).sent = ⟨c, r, b.clients.contains c, b.locks⟩ :: b.sent := rfl

@[simp] theorem recordGrants_locks (gs : List Grant) : (b.recordGrants gs).locks = b.locks := rfl
@[simp] theorem recordGrants_config (gs : List Grant) : (b.recordGrants gs).config = b.config := rfl
@[simp] theorem recordGrants_clients (gs : List Grant) : (b.recordGrants gs).clients = b.clients := rfl
@[simp] theorem recordGrants_deadlines (gs : List Grant) :
    (b.recordGrants gs).deadlines = b.deadlines := rfl
@[simp] theorem recordGrants_reads (gs : List Grant) : (b.recordGrants gs).reads = b.reads := rfl
@[simp] theorem recordGrants_sent (gs : List Grant) : (b.recordGrants gs).sent = b.sent := rfl
@[simp] theorem recordGrants_fencingWatermark (gs : List Grant) :
    (b.recordGrants gs).fencingWatermark = b.fencingWatermark := rfl

@[simp] theorem recordGrants_grants (gs : List Grant) :
    (b.recordGrants gs).grants = gs.reverse ++ b.grants := rfl

@[simp] theorem putGrant_locks (l : LockState) (g : Grant) :
    (b.putGrant l g).locks = b.locks.insert g.key l := by
  simp [putGrant]
@[simp] theorem putGrant_config (l : LockState) (g : Grant) : (b.putGrant l g).config = b.config := by
  simp [putGrant]
@[simp] theorem putGrant_clients (l : LockState) (g : Grant) : (b.putGrant l g).clients = b.clients := by
  simp [putGrant]
@[simp] theorem putGrant_deadlines (l : LockState) (g : Grant) : (b.putGrant l g).deadlines = b.deadlines := by
  simp [putGrant]
@[simp] theorem putGrant_reads (l : LockState) (g : Grant) : (b.putGrant l g).reads = b.reads := by
  simp [putGrant]
@[simp] theorem putGrant_sent (l : LockState) (g : Grant) : (b.putGrant l g).sent = b.sent := by
  simp [putGrant]
@[simp] theorem putGrant_grants (l : LockState) (g : Grant) : (b.putGrant l g).grants = g :: b.grants := by
  simp [putGrant]
@[simp] theorem putGrant_fencingWatermark (l : LockState) (g : Grant) :
    (b.putGrant l g).fencingWatermark = Nat.max b.fencingWatermark g.token := by
  simp [putGrant]

section

variable (ttl : Option Duration) (u : String) (ks : List String) (kind : RwHoldKind) (c : ClientId)

@[simp] theorem scheduleDeadline_locks : (b.scheduleDeadline env ttl u ks kind c).locks = b.locks := by
  rw [scheduleDeadline_eq]
@[simp] theorem scheduleDeadline_config : (b.scheduleDeadline env ttl u ks kind c).config = b.config := by
  rw [scheduleDeadline_eq]
@[simp] theorem scheduleDeadline_clients :
    (b.scheduleDeadline env ttl u ks kind c).clients = b.clients := by
  rw [scheduleDeadline_eq]
@[simp] theorem scheduleDeadline_sent : (b.scheduleDeadline env ttl u ks kind c).sent = b.sent := by
  rw [scheduleDeadline_eq]
@[simp] theorem scheduleDeadline_grants : (b.scheduleDeadline env ttl u ks kind c).grants = b.grants := by
  rw [scheduleDeadline_eq]
@[simp] theorem scheduleDeadline_fencingWatermark :
    (b.scheduleDeadline env ttl u ks kind c).fencingWatermark = b.fencingWatermark := by
  rw [scheduleDeadline_eq]

end

@[simp] theorem unwrapOrNewV4_locks (given : Option String) :
    (b.unwrapOrNewV4 env given).1.locks = b.locks := by
  rw [unwrapOrNewV4_fst]
@[simp] theorem unwrapOrNewV4_config (given : Option String) :
    (b.unwrapOrNewV4 env given).1.config = b.config := by
  rw [unwrapOrNewV4_fst]
@[simp] theorem unwrapOrNewV4_clients (given : Option String) :
    (b.unwrapOrNewV4 env given).1.clients = b.clients := by
  rw [unwrapOrNewV4_fst]
@[simp] theorem unwrapOrNewV4_deadlines (given : Option String) :
    (b.unwrapOrNewV4 env given).1.deadlines = b.deadlines := by
  rw [unwrapOrNewV4_fst]
@[simp] theorem unwrapOrNewV4_sent (given : Option String) :
    (b.unwrapOrNewV4 env given).1.sent = b.sent := by
  rw [unwrapOrNewV4_fst]
@[simp] theorem unwrapOrNewV4_grants (given : Option String) :
    (b.unwrapOrNewV4 env given).1.grants = b.grants := by
  rw [unwrapOrNewV4_fst]
@[simp] theorem unwrapOrNewV4_fencingWatermark (given : Option String) :
    (b.unwrapOrNewV4 env given).1.fencingWatermark = b.fencingWatermark := by
  rw [unwrapOrNewV4_fst]

@[simp] theorem resolveMax_locks (m : Nat) (r : Option Nat) : (b.resolveMax m r).1.locks = b.locks := by
  rw [resolveMax_fst]
@[simp] theorem resolveMax_config (m : Nat) (r : Option Nat) : (b.resolveMax m r).1.config = b.config := by
  rw [resolveMax_fst]
@[simp] theorem resolveMax_clients (m : Nat) (r : Option Nat) :
    (b.resolveMax m r).1.clients = b.clients := by
  rw [resolveMax_fst]
@[simp] theorem resolveMax_reads (m : Nat) (r : Option Nat) : (b.resolveMax m r).1.reads = b.reads := by
  rw [resolveMax_fst]
@[simp] theorem resolveMax_sent (m : Nat) (r : Option Nat) : (b.resolveMax m r).1.sent = b.sent := by
  rw [resolveMax_fst]
@[simp] theorem resolveMax_grants (m : Nat) (r : Option Nat) : (b.resolveMax m r).1.grants = b.grants := by
  rw [resolveMax_fst]
@[simp] theorem resolveMax_fencingWatermark (m : Nat) (r : Option Nat) :
    (b.resolveMax m r).1.fencingWatermark = b.fencingWatermark := by
  rw [resolveMax_fst]

end Broker

end LiveMutex
