/-
What a lock request does to the `max` of its key.

`handle_exclusive_lock` stores the resolved `max` before it looks whether the
request is let in, and wakes nobody afterwards. So a request that is turned
away may still have changed its key, and one that raises `max` may leave a
waiter behind that the new `max` would let in. Both are stated here with the
condition under which they do not happen.
-/
import LiveMutex.Wakeup

namespace LiveMutex

/-- Whether a lock response says the lock was acquired. -/
def Response.lockOutcome : Response → Option Bool
  | .lock _ _ acquired .. | .compositeLock _ _ acquired .. => some acquired
  | _ => none

namespace Broker

variable {env : Env} {b b' : Broker} {client : ClientId} {uuid key : String} {l : LockState}
  {pid : Option Int} {ttl : Option Duration} {max : Option Nat} {keep force wait : Bool}
  {overrides : GrantOverrides}

theorem level_of_some (hl : b.locks[key]? = some l) : b.level key max = (b.resolveMax l.max max).2 := by
  simp [level, hl]

/-- A lock request on a key with an entry: the entry gets its resolved `max`, then the request is let in,
turned away or queued. -/
theorem handleExclusiveLock_of_some (hl : b.locks[key]? = some l) :
    b.handleExclusiveLock env client uuid key pid ttl max keep force wait overrides =
      let lock := { l with max := b.level key max }
      let b := (b.resolveMax l.max max).1.setLock key lock
      if lock.writer.isNone && lock.readers.isEmpty && lock.exclusiveHolders.size < lock.max then
        b.grantExclusiveNow env client uuid key pid ttl keep overrides lock
      else if !wait then b.send client (.lock uuid key false lock.queue.len none none (some 0) none)
      else b.queueExclusive env client uuid key pid ttl keep force overrides lock := by
  have hentry := lockOrDefault_of_some env (b.resolveMax l.max max).1 key (by simpa using hl)
  unfold handleExclusiveLock
  rw [level_of_some hl, hl]
  dsimp only [Option.map_some, Option.getD_some]
  generalize (b.resolveMax l.max max).1.lockOrDefault env key = entry at hentry ⊢
  subst hentry
  rfl

/-- The stamp changes nothing else of its key. -/
theorem maybeMarkIdle_get (env : Env) (hl : b.locks[key]? = some l) :
    ∃ at_, (b.maybeMarkIdle env key).locks[key]? = some { l with timestampEmptied := at_ } := by
  rcases b.maybeMarkIdle_locks env key with he | ⟨l', at_, hl', _, he⟩
  · exact ⟨l.timestampEmptied, by rw [he]; exact hl⟩
  · obtain rfl : l' = l := Option.some.inj (hl'.symm.trans hl)
    exact ⟨at_, by rw [he, OrdMap.get_insert, if_pos rfl]⟩

/-- The key after a grant at once: one holder more, the waiters as they were. -/
theorem grantExclusiveNow_get (env : Env) (b : Broker) (client : ClientId) (uuid key : String) (pid : Option Int)
    (ttl : Option Duration) (keep : Bool) (overrides : GrantOverrides) (l : LockState) :
    ∃ l', (b.grantExclusiveNow env client uuid key pid ttl keep overrides l).locks[key]? = some l' ∧
      l'.queue = l.queue ∧ (l'.writer = l.writer ∧ l'.readers = l.readers) ∧ ∃ holder, l'.exclusiveHolders =
        l.exclusiveHolders.insert (b.unwrapOrNewV4 env overrides.lockUuid).2 holder := by
  let g := b.arrivalGrant env client uuid key overrides l
  let granted := l.take (exclusiveTerms pid keep overrides) g
  have hget : ((b.unwrapOrNewV4 env overrides.lockUuid).1.putGrant granted g).locks[key]? = some granted := by
    rw [putGrant_locks]
    exact (OrdMap.get_insert _ _ _ _).trans (if_pos rfl)
  obtain ⟨at_, hat⟩ := maybeMarkIdle_get env hget
  have htake : l.take (exclusiveTerms pid keep overrides) g =
      { l with
        fencingCounter := (l.nextOrForcedFencingToken (overrides.token 0)).1.fencingCounter
        exclusiveHolders := l.exclusiveHolders.insert g.lockUuid ⟨client, pid, g.token, keep, false⟩ } := by
    unfold LockState.take
    dsimp only [exclusiveTerms]
    rw [LockState.nextOrForcedFencingToken_eq]
    rfl
  refine ⟨{ granted with timestampEmptied := at_ }, ?_, LockState.take_queue l _ g, ?_,
    ⟨client, pid, g.token, keep, false⟩, ?_⟩
  · rw [← hat]
    simp only [grantExclusiveNow, trackHolder, send_locks, scheduleDeadline_locks, modifyClient_locks]
    rfl
  · simp only [granted, htake, and_self]
  · simp only [granted, htake]
    rfl

/-- The key after the request is queued: the holders as they were. -/
theorem queueExclusive_get (env : Env) (b : Broker) (client : ClientId) (uuid key : String) (pid : Option Int)
    (ttl : Option Duration) (keep force : Bool) (overrides : GrantOverrides) (l : LockState) :
    ∃ l', (b.queueExclusive env client uuid key pid ttl keep force overrides l).locks[key]? = some l' ∧
      l'.writer = l.writer ∧ l'.readers = l.readers ∧ l'.exclusiveHolders = l.exclusiveHolders := by
  let p := exclusivePending client uuid pid ttl keep overrides
  let queued := if force then l.pushFirst p else l.push p
  have hsame : queued.writer = l.writer ∧ queued.readers = l.readers ∧
      queued.exclusiveHolders = l.exclusiveHolders := by
    simp only [queued]
    split <;> exact ⟨rfl, rfl, rfl⟩
  have hget : (b.setLock key queued).locks[key]? = some queued := by simp
  obtain ⟨at_, hat⟩ := maybeMarkIdle_get env hget
  refine ⟨{ queued with timestampEmptied := at_ }, ?_, hsame⟩
  rw [← hat]
  simp only [queueExclusive, trackPending, send_locks, modifyClient_locks]
  rfl

end Broker

/-! ## Raising `max` -/

/-- A waiter of the kind `handle_exclusive_lock` queues. -/
def PendingRequest.isExclusive (p : PendingRequest) : Bool :=
  match p.kind with
  | .exclusive => true
  | _ => false

/-- What a request that raises `max` to `m`, and would get `lockUuid`, leaves to the waiters of its key: nothing.
The key is taken by a writer or readers, or the `m` are all there, or the request takes the last place, or
no exclusive waiter comes first. -/
def LockState.LeavesNoPlace (l : LockState) (m : Nat) (lockUuid : String) : Prop :=
  l.writer.isSome ∨ l.readers.isEmpty = false ∨ m ≤ l.exclusiveHolders.size ∨
    (m = l.exclusiveHolders.size + 1 ∧ lockUuid ∉ l.exclusiveHolders) ∨
    ∀ x p, l.queue.front = some (x, p) → p.isExclusive = false

/-- No exclusive waiter comes first in the queue of `key` with a place free for it: no writer, no readers and
fewer than `m` holders. -/
def Broker.NobodyPassedOver (b : Broker) (key : String) (m : Nat) : Prop :=
  ∀ l x p, b.locks[key]? = some l → l.queue.front = some (x, p) → p.isExclusive = true →
    ¬(l.writer.isNone ∧ l.readers.isEmpty ∧ l.exclusiveHolders.size < m)

/-- **Raising `max`.** After a lock request on a key, whether it raises `max` or not, the head of the queue is no
exclusive waiter that the new `max` lets in: just when the request leaves no place. -/
theorem Broker.handleExclusiveLock_raised {env : Env} {b : Broker} {client : ClientId} {uuid key : String}
    {pid : Option Int} {ttl : Option Duration} {max : Option Nat} {keep force wait : Bool}
    {overrides : GrantOverrides} {l : LockState} (hl : b.locks[key]? = some l) :
    (b.handleExclusiveLock env client uuid key pid ttl max keep force wait overrides).NobodyPassedOver key
        (b.level key max) ↔
      l.LeavesNoPlace (b.level key max) (b.unwrapOrNewV4 env overrides.lockUuid).2 := by
  rw [handleExclusiveLock_of_some hl]
  dsimp only
  by_cases hin : (l.writer.isNone && l.readers.isEmpty && decide (l.exclusiveHolders.size < b.level key max)) = true
  · -- let in: it takes the last place, or nobody is behind it
    rw [if_pos hin]
    simp only [Bool.and_eq_true, decide_eq_true_eq] at hin
    obtain ⟨⟨hwriter, hreaders⟩, hplace⟩ := hin
    obtain ⟨l', hl', hqueue, hrw, holder, hholders⟩ :=
      ((b.resolveMax l.max max).1.setLock key { l with max := b.level key max }).grantExclusiveNow_get env
        client uuid key pid ttl keep overrides { l with max := b.level key max }
    have huuid : (((b.resolveMax l.max max).1.setLock key { l with max := b.level key max }).unwrapOrNewV4 env
        overrides.lockUuid).2 = (b.unwrapOrNewV4 env overrides.lockUuid).2 := by
      unfold unwrapOrNewV4
      cases overrides.lockUuid <;> simp
    rw [huuid] at hholders
    have hsize : l'.exclusiveHolders.size =
        if (b.unwrapOrNewV4 env overrides.lockUuid).2 ∈ l.exclusiveHolders then l.exclusiveHolders.size
        else l.exclusiveHolders.size + 1 := by
      rw [hholders, Std.ExtTreeMap.size_insert]
      exact if_congr Std.ExtTreeMap.contains_iff_mem rfl rfl
    constructor
    · intro h
      by_cases hfront : ∀ x p, l.queue.front = some (x, p) → p.isExclusive = false
      · exact .inr (.inr (.inr (.inr hfront)))
      · -- there is one, so it has no place
        simp only [not_forall, Bool.not_eq_false] at hfront
        obtain ⟨x, p, hx, hp⟩ := hfront
        have hno := h l' x p hl' (hqueue ▸ hx) hp
        rw [hrw.1, hrw.2] at hno
        have hfull : ¬l'.exclusiveHolders.size < b.level key max := fun hlt => hno ⟨hwriter, hreaders, hlt⟩
        rw [hsize] at hfull
        refine .inr (.inr (.inr (.inl ?_)))
        split at hfull
        · exact absurd hplace hfull
        · rename_i hnew
          exact ⟨by omega, hnew⟩
    · intro hroom l₁ x p hl₁ hx hp hfree
      obtain rfl : l₁ = l' := Option.some.inj (hl₁.symm.trans hl')
      rw [hqueue] at hx
      rcases hroom with hw | hr | hm | ⟨hm, hnew⟩ | hfront
      · rw [Option.isNone_iff_eq_none] at hwriter
        rw [hwriter] at hw
        cases hw
      · rw [hr] at hreaders
        cases hreaders
      · omega
      · have hlt := hfree.2.2
        rw [hsize, if_neg hnew] at hlt
        omega
      · rw [hfront x p hx] at hp
        cases hp
  · -- not let in: neither is any waiter
    rw [if_neg hin]
    refine iff_of_true ?_ ?_
    · intro l₁ x p hl₁ _ _ hfree
      have hsame : l₁.writer = l.writer ∧ l₁.readers = l.readers ∧ l₁.exclusiveHolders = l.exclusiveHolders := by
        by_cases hwait : wait = true
        · rw [if_neg (by simp [hwait])] at hl₁
          obtain ⟨l', hl', hsame⟩ :=
            ((b.resolveMax l.max max).1.setLock key { l with max := b.level key max }).queueExclusive_get env
              client uuid key pid ttl keep force overrides { l with max := b.level key max }
          obtain rfl : l₁ = l' := Option.some.inj (hl₁.symm.trans hl')
          exact hsame
        · rw [if_pos (by simpa using hwait), send_locks, setLock_locks, OrdMap.get_insert, if_pos rfl] at hl₁
          obtain rfl := Option.some.inj hl₁
          exact ⟨rfl, rfl, rfl⟩
      rw [hsame.1, hsame.2.1, hsame.2.2] at hfree
      exact hin (by simp [hfree.1, hfree.2.1, hfree.2.2])
    · by_cases hwriter : l.writer.isNone = true
      · by_cases hreaders : l.readers.isEmpty = true
        · refine .inr (.inr (.inl (Nat.not_lt.1 fun hlt => hin ?_)))
          simp [hwriter, hreaders, hlt]
        · exact .inr (.inl (Bool.eq_false_iff.2 hreaders))
      · refine .inl ?_
        rw [Option.isSome_iff_ne_none]
        exact fun hn => hwriter (by rw [hn]; rfl)

/-- One client holds the key and a second one waits for it. -/
def Sample.contended : Broker := Sample.after [Sample.ask 1 (Sample.lock "r" "k"), Sample.ask 2 (Sample.lock "s" "k")]

/-- A third client asks for room for two and takes the second place. -/
theorem Broker.handleExclusiveLock_raised_to_two :
    (Sample.contended.handleExclusiveLock Sample.env 3 "t" "k" none none (some 2) false false true
      {}).NobodyPassedOver "k" (Sample.contended.level "k" (some 2)) := by
  have hsize : (Sample.contended.locks["k"]?.map (·.exclusiveHolders.size)) = some 1 := by decide +kernel
  have hnew : (Sample.contended.locks["k"]?.map fun l =>
      l.exclusiveHolders.contains (Sample.contended.unwrapOrNewV4 Sample.env none).2) = some false := by
    decide +kernel
  have hlevel : Sample.contended.level "k" (some 2) = 2 := by decide +kernel
  obtain ⟨l, hl, hsize⟩ := Option.map_eq_some_iff.1 hsize
  rw [hl, Option.map_some, Option.some.injEq] at hnew
  refine (handleExclusiveLock_raised hl).2 (.inr (.inr (.inr (.inl ⟨by omega, ?_⟩))))
  intro hmem
  rw [Std.ExtTreeMap.contains_iff_mem.2 hmem] at hnew
  cases hnew

/-- The third client asks for room for three: it is let in past the waiter, who waits on with a place free. -/
theorem Broker.handleExclusiveLock_raised_to_three :
    Sample.contended.Reachable Sample.config ∧
    (∃ l, Sample.contended.locks["k"]? = some l ∧ l.max < Sample.contended.level "k" (some 3)) ∧
    ¬(Sample.contended.handleExclusiveLock Sample.env 3 "t" "k" none none (some 3) false false true
      {}).NobodyPassedOver "k" (Sample.contended.level "k" (some 3)) := by
  have hmax : (Sample.contended.locks["k"]?.map fun l => decide (l.max < Sample.contended.level "k" (some 3))) =
      some true := by decide +kernel
  have hafter : ((Sample.contended.handleExclusiveLock Sample.env 3 "t" "k" none none (some 3) false false true
      {}).locks["k"]?.map fun l => (l.queue.front.any (·.2.isExclusive), l.writer.isNone, l.readers.isEmpty,
        decide (l.exclusiveHolders.size < Sample.contended.level "k" (some 3)))) = some (true, true, true, true) := by
    decide +kernel
  obtain ⟨l, hl, hlt⟩ := Option.map_eq_some_iff.1 hmax
  refine ⟨Sample.reachable_after _, ⟨l, hl, by simpa using hlt⟩, fun hno => ?_⟩
  obtain ⟨l', hl', hafter⟩ := Option.map_eq_some_iff.1 hafter
  rw [Prod.mk.injEq, Prod.mk.injEq, Prod.mk.injEq] at hafter
  obtain ⟨hfront, hw, hr, hsize⟩ := hafter
  cases hx : l'.queue.front with
  | none => rw [hx] at hfront; cases hfront
  | some e =>
    rw [hx] at hfront
    exact hno l' e.1 e.2 hl' hx hfront ⟨hw, hr, by simpa using hsize⟩

/-! ## A lock that is not acquired -/

/-- A lock request of one key names no `max`, or one that comes down to the one its key has; a `max` of 0 is
refused before the key is looked at. -/
def Broker.AsksSameMax (b : Broker) (key : Option String) (keys : Option (List String)) (max : Option Nat) : Prop :=
  ∀ k l m, key = some k → keys = none → b.locks[k]? = some l → max = some m → m ≠ 0 →
    Nat.min m b.config.cap = l.max

namespace Broker

variable {env : Env} {b b' : Broker} {client : ClientId} {uuid key : String} {l : LockState}
  {pid : Option Int} {ttl : Option Duration} {max : Option Nat} {keep force : Bool} {overrides : GrantOverrides}

/-- `b'` has the lock table and the clients of `b`. -/
def SameLocks (b b' : Broker) : Prop := b'.locks = b.locks ∧ b'.clients = b.clients

/-- One answer was sent on the way from `b` to `b'`, and it says the lock was not acquired. -/
def NotAcquired (client : ClientId) (b b' : Broker) : Prop :=
  ∃ s, b'.sent = s :: b.sent ∧ s.client = client ∧ s.response.lockOutcome = some false

theorem NotAcquired.of_send {r : Response} {b₁ : Broker} (h : b.NotAcquired client (b₁.send client r)) :
    r.lockOutcome = some false := by
  obtain ⟨s, hs, _, hr⟩ := h
  rw [send_sent, List.cons.injEq] at hs
  rw [← hs.1] at hr
  exact hr

theorem resolveMax_some {m : Nat} (hm : m ≠ 0) (currentMax : Nat) :
    (b.resolveMax currentMax (some m)).2 = Nat.min m b.config.cap := by
  unfold resolveMax
  split
  · rename_i h; cases h
  · rename_i h; exact absurd (Option.some.inj h) hm
  · rename_i m' _ h
    obtain rfl := Option.some.inj h
    dsimp only
    split
    · rename_i hgt; exact (Nat.min_eq_right (Nat.le_of_lt hgt)).symm
    · rename_i hle; exact (Nat.min_eq_left (Nat.not_lt.1 hle)).symm

/-- The `max` of a key stays just when the request asks for no other. -/
theorem resolveMax_same_iff (hs : b.Sane) (hl : b.locks[key]? = some l) (hm : max ≠ some 0) :
    (b.resolveMax l.max max).2 = l.max ↔ b.AsksSameMax (some key) none max := by
  cases max with
  | none => exact iff_of_true (resolveMax_unchanged hs hl fun m h => by cases h) fun _ _ _ _ _ _ h => by cases h
  | some m =>
    have hpos : m ≠ 0 := fun h0 => hm (by rw [h0])
    rw [resolveMax_some hpos]
    constructor
    · intro hmin k l' m' hk _ hl' hm' _
      obtain rfl := Option.some.inj hk
      obtain rfl := Option.some.inj hm'
      obtain rfl : l = l' := Option.some.inj (hl.symm.trans hl')
      exact hmin
    · intro h
      exact h key l m rfl rfl hl rfl hpos

theorem handleExclusiveLock_notAcquired (hs : b.Sane) (hm : max ≠ some 0)
    (hno : b.NotAcquired client
      (b.handleExclusiveLock env client uuid key pid ttl max keep force false overrides)) :
    b.SameLocks (b.handleExclusiveLock env client uuid key pid ttl max keep force false overrides) ↔
      b.AsksSameMax (some key) none max := by
  cases hl : b.locks[key]? with
  | none =>
    -- a new key lets its first request in
    have hin := b.admits_entry env key max (b.resolveMax_locks b.config.maxLockHolders max)
    rw [admitsNow, hl, Option.all_none, level, hl, Option.map_none, Option.getD_none] at hin
    unfold handleExclusiveLock at hno
    dsimp only at hno
    rw [hl, Option.map_none, Option.getD_none, if_pos hin] at hno
    exact absurd hno.of_send (by simp [Response.lockOutcome])
  | some l =>
    rw [← resolveMax_same_iff hs hl hm, ← level_of_some hl]
    rw [handleExclusiveLock_of_some hl] at hno ⊢
    dsimp only at hno ⊢
    split at hno
    · exact absurd hno.of_send (by simp [Response.lockOutcome])
    · rename_i hin
      rw [if_neg hin, if_pos (by decide)]
      constructor
      · intro ⟨hlocks, _⟩
        -- the entry itself is the same, and so is its `max`
        rw [send_locks, setLock_locks, resolveMax_locks] at hlocks
        have hget : (b.locks.insert key { l with max := b.level key max })[key]? = some l := by rw [hlocks, hl]
        rw [OrdMap.get_insert, if_pos rfl, Option.some.injEq] at hget
        exact congrArg LockState.max hget
      · intro hmax
        have hsame : { l with max := b.level key max } = l := by rw [hmax]
        rw [hsame]
        refine ⟨?_, by simp⟩
        rw [send_locks, setLock_locks, resolveMax_locks]
        exact OrdMap.insert_get hl

theorem handleCompositeLock_notAcquired {keys : List String}
    (hno : b.NotAcquired client (b.handleCompositeLock env client uuid keys pid ttl false overrides)) :
    b.SameLocks (b.handleCompositeLock env client uuid keys pid ttl false overrides) := by
  unfold handleCompositeLock at hno ⊢
  split at hno
  · rename_i hlen
    rw [if_pos hlen]
    exact ⟨rfl, rfl⟩
  · rename_i hlen
    rw [if_neg hlen]
    cases hkeys : Vec.sortDedup keys with
    | nil => exact ⟨rfl, rfl⟩
    | cons head rest =>
      simp only [hkeys] at hno ⊢
      split at hno
      · exact absurd hno.of_send (by simp [Response.lockOutcome])
      · rename_i hfree
        rw [if_neg hfree]
        simp [SameLocks]

end Broker

/-- **A lock that is not acquired changes nothing** but `max`: a lock request that does not wait and is answered
that the lock was not acquired leaves the lock table and every client as they were, just when it asks for the
`max` its key has. -/
theorem Broker.handleRequest_notAcquired {cfg : BrokerConfig} {env : Env} {b : Broker} {client : ClientId}
    {uuid : String} {key : Option String} {keys : Option (List String)} {pid : Option Int} {ttl max : Option Nat}
    {force keep : Bool} {retry : Nat} {overrides : GrantOverrides} (h : b.Reachable cfg)
    (hno : b.NotAcquired client (b.handleRequest env client
      (.lock uuid key keys pid ttl max force retry keep (some false)) overrides)) :
    b.SameLocks (b.handleRequest env client
      (.lock uuid key keys pid ttl max force retry keep (some false)) overrides) ↔ b.AsksSameMax key keys max := by
  simp only [handleRequest, Option.getD_some] at hno ⊢
  split at hno
  · rename_i hzero
    rw [if_pos hzero]
    refine iff_of_true (by cases keys <;> exact ⟨rfl, rfl⟩) fun k l m _ _ _ hm hpos => ?_
    exact absurd (Option.some.inj (hm.symm.trans hzero)) hpos
  · rename_i hzero
    rw [if_neg hzero]
    cases key with
    | none =>
      refine iff_of_true ?_ fun k l m hk => by cases hk
      cases keys with
      | none => exact ⟨rfl, rfl⟩
      | some ks => exact handleCompositeLock_notAcquired hno
    | some k =>
      cases keys with
      | none => exact handleExclusiveLock_notAcquired (.reachable h) hzero hno
      | some ks => exact iff_of_true ⟨rfl, rfl⟩ fun k l m _ hks => by cases hks

/-- A lock request that does not wait. -/
def Sample.tryLock (uuid key : String) (max : Option Nat) : Request :=
  .lock uuid (some key) none none none max false 0 false (some false)

/-- A request on a held key that has all the holders the request allows is turned away. -/
theorem Broker.notAcquired_tryLock {b : Broker} {l : LockState} {m : Nat} (env : Env) (client : ClientId)
    (uuid : String) {key : String} (hl : b.locks[key]? = some l) (hm : m ≠ 0)
    (hfull : b.level key (some m) ≤ l.exclusiveHolders.size) :
    b.NotAcquired client (b.handleRequest env client (Sample.tryLock uuid key (some m)) {}) := by
  have hzero : (some m : Option Nat) ≠ some 0 := by simpa using hm
  have hin : ¬(l.writer.isNone && l.readers.isEmpty &&
      decide (l.exclusiveHolders.size < b.level key (some m))) = true := by
    simp [Nat.not_lt.2 hfull]
  have heq : b.handleRequest env client (Sample.tryLock uuid key (some m)) {} =
      b.handleExclusiveLock env client uuid key none none (some m) false false false {} := by
    simp only [handleRequest, Sample.tryLock, if_neg hzero]
    rfl
  rw [heq, handleExclusiveLock_of_some hl]
  dsimp only
  rw [if_neg hin, if_pos (by decide)]
  exact ⟨_, by rw [send_sent, setLock_sent, resolveMax_sent], rfl, rfl⟩

/-- The key has its one holder. -/
theorem Broker.handleRequest_notAcquired_taken :
    Sample.contended.SameLocks
      (Sample.contended.handleRequest Sample.env 3 (Sample.tryLock "t" "k" (some 1)) {}) := by
  have hkey : (Sample.contended.locks["k"]?.map fun l => (l.max, l.exclusiveHolders.size)) = some (1, 1) := by
    decide +kernel
  have hlevel : Sample.contended.level "k" (some 1) = 1 := by decide +kernel
  have hcap : Nat.min 1 Sample.contended.config.cap = 1 := by decide +kernel
  obtain ⟨l, hl, hmax⟩ := Option.map_eq_some_iff.1 hkey
  obtain ⟨hmax, hsize⟩ := Prod.mk.inj hmax
  have hreach : Sample.contended.Reachable Sample.config := Sample.reachable_after _
  refine (handleRequest_notAcquired hreach
    (notAcquired_tryLock Sample.env 3 "t" hl (by decide) (by omega))).2 ?_
  intro k l' m hk _ hl' hm _
  obtain rfl := Option.some.inj hk
  obtain rfl := Option.some.inj hm
  obtain rfl : l' = l := Option.some.inj (hl'.symm.trans hl)
  rw [hcap, hmax]

/-- One client holds a key with room for two. -/
def Sample.roomForTwo : Broker := Sample.after [Sample.ask 1 (Sample.lockMax "r" "k" 2)]

/-- A request that does not wait and allows one holder is turned away, and leaves the key with room for one. -/
theorem Broker.handleRequest_notAcquired_lowered :
    Sample.roomForTwo.Reachable Sample.config ∧
    Sample.roomForTwo.NotAcquired 2
      (Sample.roomForTwo.handleRequest Sample.env 2 (Sample.tryLock "s" "k" (some 1)) {}) ∧
    ¬Sample.roomForTwo.SameLocks
      (Sample.roomForTwo.handleRequest Sample.env 2 (Sample.tryLock "s" "k" (some 1)) {}) := by
  have hkey : (Sample.roomForTwo.locks["k"]?.map fun l => (l.max, l.exclusiveHolders.size)) = some (2, 1) := by
    decide +kernel
  have hafter : (((Sample.roomForTwo.handleRequest Sample.env 2 (Sample.tryLock "s" "k" (some 1))
      {}).locks["k"]?.map (·.max))) = some 1 := by decide +kernel
  have hlevel : Sample.roomForTwo.level "k" (some 1) = 1 := by decide +kernel
  obtain ⟨l, hl, hmax⟩ := Option.map_eq_some_iff.1 hkey
  obtain ⟨hmax, hsize⟩ := Prod.mk.inj hmax
  refine ⟨Sample.reachable_after _, notAcquired_tryLock Sample.env 2 "s" hl (by decide) (by omega), ?_⟩
  intro ⟨hlocks, _⟩
  rw [hlocks, hl, Option.map_some, hmax] at hafter
  cases hafter

end LiveMutex
