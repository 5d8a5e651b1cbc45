/-
Idle tracking is exact: between operations a key carries an idle stamp just
when nobody holds it and nobody waits for it.

The stamp is brought up to date by hand. A handler that changes a key stamps
it itself or wakes its waiters, which ends with a stamp; the cascade stamps
every key it passes on the way. So of every stretch of an operation it is
said which keys it leaves with a right stamp, whatever stamp they had.
-/
import LiveMutex.CascadeEnds
import LiveMutex.LockMax

namespace LiveMutex

/-- The stamp says whether the key is idle. -/
def LockState.Stamped (l : LockState) : Prop := l.timestampEmptied.isSome = l.isIdle

namespace Broker

/-- The stamp of `key` is right, if the key has an entry. -/
def StampedAt (b : Broker) (key : String) : Prop := ∀ l, b.locks[key]? = some l → l.Stamped

/-- Every stamp is right. -/
def Stamped (b : Broker) : Prop := ∀ key, b.StampedAt key

/-- On the way from `b` to `b'` the stamps of `keys` are put right, and no other one is made wrong. -/
def Restamps (keys : List String) (b b' : Broker) : Prop := ∀ k, k ∈ keys ∨ b.StampedAt k → b'.StampedAt k

variable {env : Env} {b b' b'' : Broker} {key k : String} {l : LockState} {keys keys' : List String}

theorem StampedAt.congr (h : b.StampedAt k) (hk : b'.locks[k]? = b.locks[k]?) : b'.StampedAt k :=
  fun l hl => h l (hk ▸ hl)

theorem Stamped.congr (h : b.Stamped) (hl : b'.locks = b.locks) : b'.Stamped :=
  fun k => (h k).congr (by rw [hl])

/-! ## Stretches of an operation -/

theorem maybeMarkIdle_stamped (env : Env) (b : Broker) (key : String) :
    (b.maybeMarkIdle env key).StampedAt key := by
  intro l hl
  unfold maybeMarkIdle at hl
  split at hl
  · rename_i hn
    rw [hn] at hl
    cases hl
  · rename_i l₀ hl₀
    split at hl
    · rename_i hidle
      split at hl
      · simp only [setLock_locks, OrdMap.get_insert, if_pos, Option.some.injEq] at hl
        subst hl
        exact hidle.symm
      · rename_i hstamp
        obtain rfl : l₀ = l := Option.some.inj (hl₀.symm.trans hl)
        rw [LockState.Stamped, hidle, Option.isSome_iff_ne_none]
        exact fun hn => hstamp (by rw [hn]; rfl)
    · rename_i hidle
      split at hl
      · simp only [setLock_locks, OrdMap.get_insert, if_pos, Option.some.injEq] at hl
        subst hl
        exact (Bool.eq_false_iff.2 hidle).symm
      · rename_i hstamp
        obtain rfl : l₀ = l := Option.some.inj (hl₀.symm.trans hl)
        rw [LockState.Stamped, Bool.eq_false_iff.2 hidle, Bool.eq_false_iff]
        exact hstamp

theorem maybeMarkIdle_restamps (env : Env) (b : Broker) (key : String) :
    Restamps [key] b (b.maybeMarkIdle env key) := by
  intro k h
  by_cases hk : key = k
  · exact hk ▸ b.maybeMarkIdle_stamped env key
  · rcases h with h | h
    · exact absurd (List.mem_singleton.1 h).symm hk
    · exact h.congr (maybeMarkIdle_get_ne env hk)

theorem Restamps.trans (h : Restamps keys b b') (h' : Restamps keys' b' b'') : Restamps (keys ++ keys') b b'' := by
  intro k hk
  rw [List.mem_append] at hk
  rcases hk with (hk | hk) | hk
  · exact h' k (.inr (h k (.inl hk)))
  · exact h' k (.inl hk)
  · exact h' k (.inr (h k (.inr hk)))

theorem Restamps.foldl {wake : Broker → String → Broker} (hw : ∀ b k, Restamps [k] b (wake b k)) :
    ∀ (keys : List String) (b : Broker), Restamps keys b (keys.foldl wake b)
  | [], _ => fun _ h => h.elim (by simp) id
  | key :: keys, b => (hw b key).trans (foldl hw keys (wake b key))

/-- The cascade leaves every key it passes with a right stamp. -/
theorem tryGrantLoop_restamps : ∀ (fuel : Nat) (b : Broker) (key : String), b.weight < fuel →
    Restamps [key] b (b.tryGrantLoop env fuel key)
  | 0, _, _, hw => absurd hw (Nat.not_lt_zero _)
  | fuel + 1, b, key, hw => by
    unfold tryGrantLoop
    dsimp only
    rcases b.tryGrantOnce_cases env (tryGrantLoop env fuel) key with ⟨he, _⟩ | ⟨l, p, hc, he⟩
    · rw [he]
      exact maybeMarkIdle_restamps env b key
    · rw [he]
      have hlt : (b.grantHead env key l p).1.weight < fuel := by
        have := hc.weight_lt env
        omega
      cases hn : (b.grantHead env key l p).2 with
      | none =>
        intro k hk
        refine tryGrantLoop_restamps fuel (b.grantHead env key l p).1 key hlt k ?_
        by_cases heq : k = key
        · exact .inl (by simp [heq])
        · exact hk.imp_right fun h => h.congr (grantHead_get_ne hc heq (by simp [hn]))
      | some next =>
        -- the key the composite goes on to is stamped by the inner call
        have hle := tryGrantLoop_weight_le env fuel (b.grantHead env key l p).1 next
        have hinner := tryGrantLoop_restamps fuel (b.grantHead env key l p).1 next hlt
        have hrest := tryGrantLoop_restamps fuel _ key (Nat.lt_of_le_of_lt hle hlt)
        intro k hk
        refine hrest k ?_
        by_cases heq : k = key
        · exact .inl (by simp [heq])
        · refine .inr (hinner k ?_)
          by_cases hnext : k = next
          · exact .inl (by simp [hnext])
          · refine hk.elim (fun h => absurd (List.mem_singleton.1 h) heq) fun h => .inr (h.congr ?_)
            refine grantHead_get_ne hc heq ?_
            rw [hn]
            exact fun he => hnext (Option.some.inj he).symm

theorem tryGrantNext_restamps (env : Env) (b : Broker) (key : String) : Restamps [key] b (b.tryGrantNext env key) :=
  tryGrantLoop_restamps _ b key (Nat.lt_succ_self _)

/-- What changes no key but those that are stamped afterwards leaves every stamp right. -/
theorem Stamped.restamp (h : b.Stamped) (hne : ∀ k, k ∉ keys → b'.locks[k]? = b.locks[k]?)
    (hr : Restamps keys b' b'') : b''.Stamped := by
  intro k
  by_cases hk : k ∈ keys
  · exact hr k (.inl hk)
  · exact hr k (.inr ((h k).congr (hne k hk)))

/-- The case of one key, with bookkeeping after the stamp. -/
theorem Stamped.mark (env : Env) (b' : Broker) (h : b.Stamped)
    (hne : ∀ k, key ≠ k → b'.locks[k]? = b.locks[k]?) (hl : b''.locks = (b'.maybeMarkIdle env key).locks) :
    b''.Stamped := by
  refine Stamped.congr ?_ hl
  refine h.restamp (fun k hk => hne k ?_) (maybeMarkIdle_restamps env b' key)
  exact fun he => hk (by simp [he])

/-! ## Requests -/

section

variable {client : ClientId} {uuid : String} {overrides : GrantOverrides} {pid : Option Int}
  {ttl : Option Duration}

theorem handleExclusiveLock_stamped (h : b.Stamped) (max : Option Nat) (keep force wait : Bool) :
    (b.handleExclusiveLock env client uuid key pid ttl max keep force wait overrides).Stamped := by
  have hadmits := b.admits_entry env key max (b.resolveMax_locks ((b.locks[key]?.map (·.max)).getD
    b.config.maxLockHolders) max)
  unfold level at hadmits
  have hother : ∀ (l : LockState) k, key ≠ k →
      ((((b.resolveMax ((b.locks[key]?.map (·.max)).getD b.config.maxLockHolders) max).1.lockOrDefault env
        key).1.setLock key l).locks[k]? = b.locks[k]?) := by
    intro l k hk
    rw [setLock_locks, OrdMap.get_insert_ne _ _ hk, lockOrDefault_get_ne env hk, resolveMax_locks]
  unfold handleExclusiveLock
  dsimp only
  split
  · -- let in at once
    unfold grantExclusiveNow
    refine h.mark env (((Broker.unwrapOrNewV4 env _ overrides.lockUuid).1).putGrant _ _) (fun k hk => ?_)
      (by simp only [trackHolder, send_locks, scheduleDeadline_locks, modifyClient_locks]; rfl)
    rw [putGrant_locks, unwrapOrNewV4_locks]
    exact (OrdMap.get_insert_ne _ _ hk).trans (hother _ k hk)
  · rename_i hin
    split
    · -- turned away: a request on a new key never is, and the key is as idle as it was
      intro k l hl
      by_cases hk : key = k
      · subst hk
        cases hkey : b.locks[key]? with
        | none => exact absurd (hadmits.trans (by rw [admitsNow, hkey]; rfl)) hin
        | some l₀ =>
          rw [hkey, Option.map_some, Option.getD_some, lockOrDefault_of_some env _ key (by simpa using hkey)] at hl
          simp only [send_locks, setLock_locks, OrdMap.get_insert, if_pos, Option.some.injEq] at hl
          subst hl
          exact h key l₀ hkey
      · exact h k l ((hother _ k hk).symm.trans hl)
    · -- queued
      unfold queueExclusive
      refine h.mark env (Broker.setLock _ key _) (fun k hk => ?_)
        (by simp only [trackPending, send_locks, modifyClient_locks]; rfl)
      rw [setLock_locks, OrdMap.get_insert_ne _ _ hk]
      exact hother _ k hk

theorem grantMembers_get_ne (env : Env) (client : ClientId) (uuid : String) (pid : Option Int) (lockUuid : String)
    (overrides : GrantOverrides) : ∀ (keys : List String) (idx : Nat) (acc : MemberGrants), k ∉ keys →
      (grantMembers env client uuid pid lockUuid overrides keys idx acc).broker.locks[k]? = acc.broker.locks[k]?
  | [], _, _, _ => rfl
  | key :: keys, idx, acc, hk => by
    rw [List.mem_cons, not_or] at hk
    rw [grantMembers, grantMembers_get_ne env client uuid pid lockUuid overrides keys _ _ hk.2]
    dsimp only
    rw [setLock_locks, OrdMap.get_insert_ne _ _ (Ne.symm hk.1), lockOrDefault_get_ne env (Ne.symm hk.1)]

theorem grantCompositeNow_stamped (h : b.Stamped) (lockUuid : String) :
    (b.grantCompositeNow env client uuid keys pid ttl lockUuid overrides).Stamped := by
  unfold grantCompositeNow
  dsimp only
  refine Stamped.congr (h.restamp (fun k hk => ?_) (Restamps.foldl (maybeMarkIdle_restamps env) keys _))
    (by simp only [trackHolder, send_locks, scheduleDeadline_locks, modifyClient_locks]; rfl)
  rw [recordGrants_locks, observeFencingToken_locks]
  exact grantMembers_get_ne env client uuid pid lockUuid overrides keys 0 _ hk

theorem queueComposite_restamps (head : String) (lockUuid : String) :
    Restamps [head] b (b.queueComposite env client uuid head keys pid ttl lockUuid overrides) := by
  intro k hk
  by_cases heq : head = k
  · subst heq
    unfold queueComposite
    dsimp only
    intro l hl
    simp only [trackPending, send_locks, modifyClient_locks] at hl
    exact maybeMarkIdle_stamped env _ head l hl
  · rcases hk with hk | hk
    · exact absurd (List.mem_singleton.1 hk).symm heq
    · exact hk.congr (queueComposite_get_ne heq)

theorem handleCompositeLock_stamped (h : b.Stamped) (wait : Bool) :
    (b.handleCompositeLock env client uuid keys pid ttl wait overrides).Stamped := by
  have hdrawn : (b.unwrapOrNewV4 env overrides.lockUuid).1.Stamped := h.congr (by simp)
  unfold handleCompositeLock
  split
  · exact h.congr rfl
  · split
    · exact h
    · rename_i head rest _
      dsimp only
      split
      · exact grantCompositeNow_stamped hdrawn _
      · split
        · exact hdrawn.congr rfl
        · exact hdrawn.restamp (fun _ _ => rfl)
            ((queueComposite_restamps head _).trans (tryGrantNext_restamps env _ head))

/-- A grant at once of a reader or writer, or its request queued: the key is stamped at the end. -/
theorem registered_stamped (h : b.Stamped) (b₁ : Broker)
    (hne : ∀ k, key ≠ k → b₁.locks[k]? = (b.lockOrDefault env key).1.locks[k]?)
    (hl : b'.locks = (b₁.maybeMarkIdle env key).locks) : b'.Stamped :=
  h.mark env b₁ (fun k hk => (hne k hk).trans (lockOrDefault_get_ne env hk)) hl

theorem handleRegisterRead_stamped (h : b.Stamped) :
    (b.handleRegisterRead env client uuid key overrides).Stamped := by
  unfold handleRegisterRead
  dsimp only
  split
  · unfold grantReadNow
    refine registered_stamped h ((Broker.unwrapOrNewV4 env _ overrides.lockUuid).1.putGrant _ _) (fun k hk => ?_)
      (by simp only [trackHolder, send_locks, modifyClient_locks]; rfl)
    rw [putGrant_locks, unwrapOrNewV4_locks]
    exact OrdMap.get_insert_ne _ _ hk
  · unfold queueRw
    refine registered_stamped h (Broker.setLock _ key _) (fun k hk => ?_)
      (by simp only [trackPending, send_locks, modifyClient_locks]; rfl)
    exact OrdMap.get_insert_ne _ _ hk

theorem handleRegisterWrite_stamped (h : b.Stamped) :
    (b.handleRegisterWrite env client uuid key overrides).Stamped := by
  unfold handleRegisterWrite
  dsimp only
  split
  · unfold grantWriteNow
    refine registered_stamped h ((Broker.unwrapOrNewV4 env _ overrides.lockUuid).1.putGrant _ _) (fun k hk => ?_)
      (by simp only [trackHolder, send_locks, modifyClient_locks]; rfl)
    rw [putGrant_locks, unwrapOrNewV4_locks]
    exact OrdMap.get_insert_ne _ _ hk
  · unfold queueRw
    refine registered_stamped h (Broker.setLock _ key _) (fun k hk => ?_)
      (by simp only [trackPending, send_locks, modifyClient_locks]; rfl)
    exact OrdMap.get_insert_ne _ _ hk

theorem handleUnlock_stamped (h : b.Stamped) (lockUuid : Option String) (force : Bool) :
    (b.handleUnlock env client uuid keys lockUuid force).Stamped := by
  unfold handleUnlock
  split
  · exact h.congr rfl
  · split
    · exact h.congr rfl
    · refine Stamped.congr (h.restamp (fun k hk => ?_)
        (Restamps.foldl (tryGrantNext_restamps env) keys (b.unlockRelease env client keys lockUuid force))) rfl
      rw [unlockRelease_locks, unlockKeys_get client lockUuid force hk]

/-- A release on one key and a wake-up of it. -/
theorem Stamped.wake (h : b.Stamped) (hne : ∀ k, key ≠ k → b'.locks[k]? = b.locks[k]?) :
    (b'.tryGrantNext env key).Stamped := by
  refine h.restamp (fun k hk => hne k ?_) (tryGrantNext_restamps env b' key)
  exact fun he => hk (by simp [he])

theorem handleEndRead_stamped (h : b.Stamped) : (b.handleEndRead env client uuid key).Stamped := by
  unfold handleEndRead
  split
  · exact h.congr rfl
  · exact h.wake fun k hk => endReadRelease_get_ne client hk

theorem handleEndWrite_stamped (h : b.Stamped) : (b.handleEndWrite env client uuid key).Stamped := by
  unfold handleEndWrite
  split
  · exact h.wake fun _ _ => rfl
  · exact h.wake fun k hk => endWriteRelease_get_ne client hk

theorem handleRequest_stamped (h : b.Stamped) (request : Request) :
    (b.handleRequest env client request overrides).Stamped := by
  cases request with
  | version uuid v => exact h.congr rfl
  | auth uuid t => exact h.congr rfl
  | lock uuid key keys pid ttl max force retry keep wait =>
    unfold handleRequest
    dsimp only
    split
    · cases keys <;> exact h.congr rfl
    · split
      · exact handleExclusiveLock_stamped h _ _ _ _
      · exact handleCompositeLock_stamped h _
      · exact h.congr rfl
      · exact h.congr rfl
  | unlock uuid key keys lockUuid force =>
    unfold handleRequest
    dsimp only
    split
    · exact handleUnlock_stamped h _ _
    · exact handleUnlock_stamped h _ _
    · exact h.congr rfl
    · exact h.congr rfl
  | registerRead uuid key => exact handleRegisterRead_stamped h
  | registerWrite uuid key => exact handleRegisterWrite_stamped h
  | endRead uuid key => exact handleEndRead_stamped h
  | endWrite uuid key => exact handleEndWrite_stamped h
  | lockInfo uuid key =>
    unfold handleRequest
    dsimp only
    split <;> exact h.congr rfl
  | ls uuid => exact h.congr rfl
  | heartbeat uuid => exact h.congr rfl

end

/-! ## The other operations -/

/-- Waking the touched keys, when no other one changed. -/
theorem Stamped.wakeTouched (h : b.Stamped) {d : Dropping} {wake : Broker → String → Broker}
    (hw : ∀ b k, Restamps [k] b (wake b k)) (hm : d.Marks b) : (wakeTouched env d wake).Stamped := by
  refine h.restamp (fun k hk => ?_) (Restamps.foldl hw _ { d.broker with reads := d.broker.reads + 1 })
  exact hm k fun hmem => hk ((env.order_perm _ _).mem_iff.2 hmem)

theorem dropClient_stamped (h : b.Stamped) (client : ClientId) : (b.dropClient env client).Stamped := by
  unfold dropClient
  split
  · refine h.wakeTouched (fun b k => ?_) (.dropUnregistered client)
    intro a ha
    refine ((maybeMarkIdle_restamps env b k).trans (tryGrantNext_restamps env _ k)) a (ha.imp_left fun hmem => ?_)
    simpa using hmem
  · exact h.wakeTouched (tryGrantNext_restamps env) (.dropRegistered client _)

theorem detachLockOwner_stamped (h : b.Stamped) (lockUuid : String) : (b.detachLockOwner lockUuid).Stamped := by
  unfold detachLockOwner
  refine List.foldlRecOn (motive := Stamped) _ _ (fun k l hl => ?_) fun b hb client _ => ?_
  · rw [Std.ExtTreeMap.getElem?_map] at hl
    obtain ⟨l₀, hl₀, rfl⟩ := Option.map_eq_some_iff.1 hl
    have hstamp := h k l₀ hl₀
    simpa [LockState.Stamped, LockState.isIdle, LockState.detachOwner, OrdMap.isEmpty_modify] using hstamp
  · rw [detachFrom_eq]
    exact hb

theorem tickTtl_stamped (h : b.Stamped) (now : Instant) : (b.tickTtl env now).1.Stamped := by
  have hwake : (wakeTouched env (b.sweep now).toDropping fun b key => b.tryGrantNext env key).Stamped :=
    h.wakeTouched (tryGrantNext_restamps env) (.sweep now)
  exact fun k l hl => hwake k l (get_of_prune hl)

theorem Stamped.apply (env : Env) (h : b.Stamped) (op : Op) : (b.apply env op).Stamped := by
  cases op with
  | registerClient => exact h.congr rfl
  | registerClientWithId id => exact h.congr rfl
  | request client r overrides => exact handleRequest_stamped h r
  | dropClient client => exact dropClient_stamped h client
  | detachLockFromClient client u => exact h.congr (by simp [Broker.apply, detachLockFromClient, untrackHolder])
  | detachLockOwner u => exact detachLockOwner_stamped h u
  | tickTtl now => exact tickTtl_stamped h now

end Broker

/-- A key comes back from a snapshot with the right stamp. -/
theorem LockState.restore_stamped (l : LockState) (key : String) (cap : Nat) (now : Instant) :
    ((l.snapshot key).restore cap now).Stamped := by
  have hqueue : ((l.snapshot key).restore cap now).queue.isEmpty = l.queue.isEmpty := by
    rw [l.restore_queue key cap now, LinkedQueue.isEmpty_eq, LinkedQueue.isEmpty_eq]
    cases hq : l.queue.entries with
    | nil => rfl
    | cons e es =>
      have hne := LinkedQueue.foldl_pushBack_ne_nil (fun e : String × PendingRequest => e.2.requestUuid)
        (fun e => e.2.restored) (e :: es) .empty (by simp)
      rw [List.isEmpty_cons, List.isEmpty_eq_false_iff]
      exact hne
  have hidle : ((l.snapshot key).restore cap now).isIdle = l.isIdle := by
    unfold isIdle
    rw [hqueue, restore_exclusiveHolders, restore_readers, restore_writer, OrdMap.isEmpty_map, OrdMap.isEmpty_map,
      Option.isNone_map]
  -- the stamp is given by the entry without it, which is as idle
  have hlock : ((l.snapshot key).lock cap).isIdle = l.isIdle := by
    rw [← hidle, restore_eq]
    rfl
  rw [Stamped, hidle]
  unfold BrokerRaftLockSnapshot.restore
  dsimp only
  rw [hlock]
  cases hl : l.isIdle
  · rfl
  · have hs : (l.snapshot key).idle = true := hl
    rw [hs]
    rfl

/-- **Idle tracking is exact.** In every reachable state a key has an idle stamp just when it is idle: no holder,
reader or writer has it and no request waits for it. So what the prune sweep of `tick_ttl` takes is idle. -/
theorem Broker.Reachable.stamped {cfg : BrokerConfig} {b : Broker} (h : b.Reachable cfg) :
    (∀ (key : String) (l : LockState), b.locks[key]? = some l → (l.timestampEmptied.isSome ↔ l.isIdle)) ∧
    ∀ (env : Env) (now : Instant) (key : String) (l : LockState),
      (wakeTouched env (b.sweep now).toDropping fun b key => b.tryGrantNext env key).locks[key]? = some l →
      (b.tickTtl env now).1.locks[key]? = none → l.isIdle := by
  have hstamped : b.Stamped := by
    induction h with
    | new => exact fun k l hl => by simp [Broker.new, BrokerState.new] at hl
    | apply env op _ ih => exact ih.apply env op
    | install env now _ _ hi _ _ =>
      intro k l hl
      rw [(installBrokerRaftSnapshot_locks (installRaftSnapshot_ok hi).2).1, Std.ExtTreeMap.getElem?_map] at hl
      obtain ⟨l₀, _, rfl⟩ := Option.map_eq_some_iff.1 hl
      exact l₀.restore_stamped k _ _
  refine ⟨fun key l hl => ?_, fun env now key l hl hgone => ?_⟩
  · rw [hstamped key l hl]
  · rcases prune_get hl with hstay | ⟨_, hidle⟩
    · exact absurd (hstay.symm.trans hgone) (by simp)
    · exact hidle

/-- A key is locked and unlocked again: it is idle and has its stamp. -/
theorem Broker.Reachable.stamped_unlocked :
    ∃ l, (Sample.after [Sample.ask 1 (Sample.lock "r" "k"), Sample.ask 1 (Sample.unlock "s" "k" "uu")]).locks["k"]? =
      some l ∧ l.isIdle ∧ l.timestampEmptied.isSome := by
  have hidle : ((Sample.after [Sample.ask 1 (Sample.lock "r" "k"),
      Sample.ask 1 (Sample.unlock "s" "k" "uu")]).locks["k"]?.map (·.isIdle)) = some true := by decide +kernel
  obtain ⟨l, hl, hidle⟩ := Option.map_eq_some_iff.1 hidle
  exact ⟨l, hl, hidle, ((Broker.Reachable.stamped (Sample.reachable_after _)).1 "k" l hl).2 hidle⟩

end LiveMutex
