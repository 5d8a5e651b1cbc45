/-
Requests on the ledger: a lock or register request is turned away, awarded its
keys, or queued.
-/
import LiveMutex.LedgerRefine

namespace LiveMutex

namespace Broker

variable {env : Env} {b b' b'' : Broker} {op : Op}

/-- A request comes in, and waiters may be granted after it. -/
def Comes (env : Env) (op : Op) (b b' : Broker) : Prop :=
  ∃ v, b.ledger.Enters env op v ∧ v.Cascade env b'.ledger

namespace Comes

theorem of_idles (hj : op.joins = false) (h : b.Idles b') : b.Comes env op b' :=
  ⟨b.ledger, .still hj, .single h.grants⟩

theorem of_enters (h : b.ledger.Enters env op b'.ledger) : b.Comes env op b' := ⟨_, h, .refl⟩

theorem settles (h : b.Comes env op b') (hs : b'.Settles env b'') (hb : b'.Sane) : b.Comes env op b'' := by
  obtain ⟨v, he, hc⟩ := h
  exact ⟨v, he, hc.trans (hs.cascade hb)⟩

/-- What is prepared for a request leaves the ledger as it is. -/
theorem after (hi : b.Idles b') (h : b'.Comes env op b'') : b.Comes env op b'' := by
  have gives : ∀ {given : Option String} {n : Nat} {u : String}, env.Gives given b'.ledger.reads n u →
      env.Gives given b.ledger.reads n u :=
    fun h => h.imp_right fun h => ⟨h.1, h.2.mono hi.reads le_rfl⟩
  obtain ⟨v, he, hc⟩ := h
  rcases he with hj | ⟨lock, kept, token, hr, hu, hn, ha, hd⟩ | ⟨hj, hp, hc', hx, hu, hn⟩
  · exact ⟨b.ledger, .still hj, hc.head hi.grants⟩
  · rw [hi.ledger] at hc
    exact ⟨_, .award lock kept token hr (gives hu) (hi.reads.trans hn) ha fun e he => (hd e he).mono hi.reads le_rfl, hc⟩
  · rw [hi.ledger] at hc
    exact ⟨_, .enqueue hj hp hc' hx (fun u hres => gives (hu u hres)) (hi.reads.trans hn), hc⟩

end Comes

section

variable {client : ClientId} {uuid key : String} {overrides : GrantOverrides} {pid : Option Int}
  {ttl : Option Duration} {keepLocksAfterDeath force : Bool} {l : LockState} {r : Request}

/-- A lock is granted on arrival. -/
theorem award_comes (lock : KeysOfLock) (u : String) (kept : Bool) (token : String → Nat) (gs : List Grant)
    (ttl : Option Duration) {a : Response} (hr : requestCanGrant r = true)
    (hgives : env.Gives overrides.lockUuid b.reads b'.reads u) (hreads : b.reads ≤ b'.reads)
    (hq : ∀ k, b'.locks.queueAt k = b.locks.queueAt k)
    (hst : ∀ k kd w, b'.locks.stakeAt k kd w =
      (b.ledger.give lock.keys lock.rwKind u fun k => ⟨client, kept, token k⟩).stake k kd w)
    (hclients : b'.clients = (b.trackHolder client u lock.keys lock.rwKind).clients)
    (hdue : b.Schedules env ttl u lock client b')
    (ha : a.Awards r.uuid lock u fun k => if k ∈ lock.keys then some (token k) else none)
    (hgrants : b'.grants = gs.reverse ++ b.grants)
    (hgs : (gs.map fun g => (g.key, g.lockUuid, g.token)) = lock.keys.map fun k => (k, u, token k))
    (hsent : ∃ delivered, b'.sent = ⟨client, a, delivered, b'.locks⟩ :: b.sent) :
    b.Comes env (.request client r overrides) b' := by
  obtain ⟨d, hd, hdl⟩ := hdue
  obtain ⟨_, hsent⟩ := hsent
  have hledger : b'.ledger = (b.ledger.award lock u client kept token a d).asked b'.reads := by
    refine ledger_eq hq hst (fun a => ?_) hdl ?_ rfl
    · rw [hclients, trackHolder, modifyClient_get]
      rfl
    · rw [past_award gs ha.awarded hsent hgrants, hgs, funext fun k => funext fun kind => funext (hst k kind)]
      rfl
  refine .of_enters ?_
  rw [hledger]
  exact .award lock kept token hr hgives hreads ha fun e he => (hd e he).1

/-- The table after a grant of one key on arrival. -/
theorem stakeAt_take {terms : Terms} {g : Grant} (h : b.locks[key]? = some l) (hw : terms.mode = .writer → l.writer = none)
    (hg : g.client = client) (k : String) (kd : RwHoldKind) (w : String) :
    LockTable.stakeAt (b.locks.insert key (l.take terms g)) k kd w =
      (b.ledger.give [key] terms.mode.kind g.lockUuid fun _ => ⟨client, terms.kept, g.token⟩).stake k kd w := by
  rw [LockTable.stakeAt_insert, LockState.take_stake hw, hg]
  show _ = if k ∈ [key] ∧ _ ∧ _ then _ else b.locks.stakeAt k kd w
  by_cases hk : key = k
  · subst hk
    simp [LockTable.stakeAt_of_some h]
  · simp [hk, Ne.symm hk]

theorem queueAt_take {terms : Terms} {g : Grant} (h : b.locks[key]? = some l) (k : String) :
    LockTable.queueAt (b.locks.insert key (l.take terms g)) k = b.locks.queueAt k := by
  rw [LockTable.queueAt_insert, LockState.take_queue]
  split
  · rename_i he
    subst he
    rw [LockTable.queueAt_of_some h]
  · rfl

/-- One key, granted on arrival. -/
theorem arrivalGrant_comes (terms : Terms) (ttl : Option Duration) {a : Response} (hr : requestCanGrant r = true)
    (h : b.locks[key]? = some l) (hw : terms.mode = .writer → l.writer = none)
    (hlocks : LockTable.Same (b.locks.insert key (l.take terms (b.arrivalGrant env client r.uuid key overrides l)))
      b'.locks)
    (hreads : (b.unwrapOrNewV4 env overrides.lockUuid).1.reads ≤ b'.reads)
    (hclients : b'.clients =
      (b.trackHolder client (b.unwrapOrNewV4 env overrides.lockUuid).2 [key] terms.mode.kind).clients)
    (hdue : b.Schedules env ttl (b.unwrapOrNewV4 env overrides.lockUuid).2 ⟨[key], terms.mode.kind⟩ client b')
    (ha : a.Awards r.uuid ⟨[key], terms.mode.kind⟩ (b.unwrapOrNewV4 env overrides.lockUuid).2 fun k =>
      if key = k then some (l.nextOrForcedFencingToken (overrides.token 0)).2 else none)
    (hgrants : b'.grants = b.arrivalGrant env client r.uuid key overrides l :: b.grants)
    (hsent : ∃ delivered, b'.sent = ⟨client, a, delivered, b'.locks⟩ :: b.sent) :
    b.Comes env (.request client r overrides) b' := by
  have hgives : env.Gives overrides.lockUuid b.reads b'.reads (b.unwrapOrNewV4 env overrides.lockUuid).2 :=
    (b.unwrapOrNewV4_snd env overrides.lockUuid).imp_right fun h => ⟨h.1, h.2.mono le_rfl hreads⟩
  refine award_comes ⟨[key], terms.mode.kind⟩ _ terms.kept (fun _ => (l.nextOrForcedFencingToken (overrides.token 0)).2)
    [b.arrivalGrant env client r.uuid key overrides l] ttl hr hgives ((b.unwrapOrNewV4_reads env _).trans hreads)
    (fun k => ?_) (fun k kd w => ?_) hclients hdue ?_ hgrants rfl hsent
  · rw [hlocks.queue, queueAt_take h]
  · rw [hlocks.stake, stakeAt_take h hw rfl]
    rfl
  · simpa only [List.mem_singleton, eq_comm] using ha

theorem grantExclusiveNow_comes (hr : requestCanGrant r = true) (h : b.locks[key]? = some l) :
    b.Comes env (.request client r overrides)
      (b.grantExclusiveNow env client r.uuid key pid ttl keepLocksAfterDeath overrides l) := by
  have hle := b.unwrapOrNewV4_reads env overrides.lockUuid
  refine arrivalGrant_comes { mode := .exclusive, pid, keepLocksAfterDeath, forced := overrides.token 0 } ttl hr h
    (by simp) ?_ ?_ ?_ ?_ ⟨rfl, rfl⟩ ?_ ⟨_, congrArg (List.cons _) ?_⟩
  · simp only [grantExclusiveNow, send_locks, scheduleDeadline_locks, trackHolder, modifyClient_locks]
    refine LockTable.Same.trans ?_ (Idles.maybeMarkIdle env _ key).locks
    simp only [putGrant_locks, unwrapOrNewV4_locks]
    exact .refl
  · refine le_trans ?_ (scheduleDeadline_reads env _ _ _ _ _ _)
    simp only [trackHolder, modifyClient_reads]
    exact le_trans (by simp only [putGrant_reads, le_refl]) (maybeMarkIdle_reads env _ key)
  · simp only [grantExclusiveNow, send_clients, scheduleDeadline_clients, trackHolder]
    apply modifyClient_congr
    simp only [maybeMarkIdle_clients, putGrant_clients, unwrapOrNewV4_clients]
  · refine Schedules.within (scheduleDeadline_schedules env _ ttl _ [key] client) ?_ ?_ le_rfl rfl
    · simp only [trackHolder, modifyClient_reads]
      exact hle.trans (le_trans (by simp only [putGrant_reads, le_refl]) (maybeMarkIdle_reads env _ key))
    · simp only [trackHolder, modifyClient_deadlines, maybeMarkIdle_deadlines, putGrant_deadlines, unwrapOrNewV4_deadlines]
  · simp only [grantExclusiveNow, trackHolder, send_grants, scheduleDeadline_grants, modifyClient_grants]
    rw [maybeMarkIdle_eq]
    simp only [putGrant_grants, unwrapOrNewV4_grants]
    rfl
  · simp only [scheduleDeadline_sent, trackHolder, modifyClient_sent, maybeMarkIdle_sent, putGrant_sent, unwrapOrNewV4_sent]

theorem grantReadNow_comes (hr : requestCanGrant r = true) (h : b.locks[key]? = some l) :
    b.Comes env (.request client r overrides) (b.grantReadNow env client r.uuid key overrides l) := by
  refine arrivalGrant_comes { mode := .reader, forced := overrides.token 0 } none hr h (by simp) ?_ ?_ ?_
    (.none ?_) ⟨rfl, rfl⟩ ?_ ⟨_, congrArg (List.cons _) ?_⟩
  · simp only [grantReadNow, send_locks, trackHolder, modifyClient_locks]
    refine LockTable.Same.trans ?_ (Idles.maybeMarkIdle env _ key).locks
    simp only [putGrant_locks, unwrapOrNewV4_locks]
    exact .refl
  · simp only [grantReadNow, send_reads, trackHolder, modifyClient_reads]
    exact le_trans (by simp only [putGrant_reads, le_refl]) (maybeMarkIdle_reads env _ key)
  · simp only [grantReadNow, send_clients, trackHolder]
    apply modifyClient_congr
    simp only [maybeMarkIdle_clients, putGrant_clients, unwrapOrNewV4_clients]
  · simp only [grantReadNow, send_deadlines, trackHolder, modifyClient_deadlines, maybeMarkIdle_deadlines,
      putGrant_deadlines, unwrapOrNewV4_deadlines]
  · simp only [grantReadNow, trackHolder, send_grants, modifyClient_grants]
    rw [maybeMarkIdle_eq]
    simp only [putGrant_grants, unwrapOrNewV4_grants]
    rfl
  · simp only [trackHolder, modifyClient_sent, maybeMarkIdle_sent, putGrant_sent, unwrapOrNewV4_sent]

theorem grantWriteNow_comes (hr : requestCanGrant r = true) (h : b.locks[key]? = some l) (hw : l.writer = none) :
    b.Comes env (.request client r overrides) (b.grantWriteNow env client r.uuid key overrides l) := by
  refine arrivalGrant_comes { mode := .writer, forced := overrides.token 0 } none hr h (fun _ => hw) ?_ ?_ ?_
    (.none ?_) ⟨rfl, rfl⟩ ?_ ⟨_, congrArg (List.cons _) ?_⟩
  · simp only [grantWriteNow, send_locks, trackHolder, modifyClient_locks]
    refine LockTable.Same.trans ?_ (Idles.maybeMarkIdle env _ key).locks
    simp only [putGrant_locks, unwrapOrNewV4_locks]
    exact .refl
  · simp only [grantWriteNow, send_reads, trackHolder, modifyClient_reads]
    exact le_trans (by simp only [putGrant_reads, le_refl]) (maybeMarkIdle_reads env _ key)
  · simp only [grantWriteNow, send_clients, trackHolder]
    apply modifyClient_congr
    simp only [maybeMarkIdle_clients, putGrant_clients, unwrapOrNewV4_clients]
  · simp only [grantWriteNow, send_deadlines, trackHolder, modifyClient_deadlines, maybeMarkIdle_deadlines,
      putGrant_deadlines, unwrapOrNewV4_deadlines]
  · simp only [grantWriteNow, trackHolder, send_grants, modifyClient_grants]
    rw [maybeMarkIdle_eq]
    simp only [putGrant_grants, unwrapOrNewV4_grants]
    rfl
  · simp only [trackHolder, modifyClient_sent, maybeMarkIdle_sent, putGrant_sent, unwrapOrNewV4_sent]

/-- A request is queued, on an entry prepared for it. -/
theorem enqueue_comes (env : Env) {p : PendingRequest} {b₁ : Broker} (first : Bool) (hj : r.joins = true)
    (hi : b.Idles b₁) (h : b₁.locks[key]? = some l) (hp : p.Starts key) (hc : p.client = client) (hx : p.requestUuid = r.uuid)
    (hu : ∀ u, p.reserved = some u → env.Gives overrides.lockUuid b.reads b'.reads u) (hreads : b.reads ≤ b'.reads)
    (hlocks : b'.locks =
      ((b₁.setLock key (if first then l.pushFirst p else l.push p)).maybeMarkIdle env key).locks)
    (hclients : b'.clients = (b₁.trackPending p.client key p.requestUuid).clients)
    (hdl : b'.deadlines = b₁.deadlines) (hpast : b'.past = b.past) :
    b.Comes env (.request client r overrides) b' := by
  have hpush := enqueue_ledger h p first
  have hmark := (Idles.maybeMarkIdle env (b₁.setLock key (if first then l.pushFirst p else l.push p)) key).locks
  have hledger : b'.ledger = (b₁.ledger.enqueue key p first).asked b'.reads := by
    rw [← hpush]
    refine ledger_eq (fun k => ?_) (fun k kd w => ?_) (fun a => ?_) (fun dk => ?_) ?_ rfl
    · rw [hlocks, hmark.queue]
      simp only [trackPending, modifyClient_locks, Ledger.asked, ledger]
    · rw [hlocks, hmark.stake]
      simp only [trackPending, modifyClient_locks, Ledger.asked, ledger]
    · rw [hclients, trackPending, modifyClient_get]
      show _ = (trackPending _ _ _ _).clients[a]?
      rw [trackPending, modifyClient_get]
      rfl
    · rw [hdl]
      simp only [trackPending, modifyClient_deadlines, Ledger.asked, ledger, setLock_deadlines]
    · rw [hpast, ← hi.past]
      refine (past_eq ?_ ?_).symm
      · simp only [trackPending, modifyClient_sent, setLock_sent]
      · simp only [trackPending, modifyClient_grants, setLock_grants]
  refine .of_enters ?_
  rw [hledger, hi.ledger]
  exact .enqueue hj hp hc hx hu hreads

theorem queueExclusive_comes (hj : r.joins = true) (h : b.locks[key]? = some l) :
    b.Comes env (.request client r overrides)
      (b.queueExclusive env client r.uuid key pid ttl keepLocksAfterDeath force overrides l) := by
  refine enqueue_comes env (p := ⟨r.uuid, client, pid, ttl, overrides.lockUuid, overrides.fencingSeed,
    keepLocksAfterDeath, .exclusive⟩) force hj .refl h (by simp [PendingRequest.Starts]) rfl rfl (fun u hu => .inl hu) ?_ ?_ ?_
    ?_ ?_
  · simp only [queueExclusive, send_reads, trackPending, modifyClient_reads]
    exact maybeMarkIdle_reads env (b.setLock key _) key
  · simp only [queueExclusive, send_locks, trackPending, modifyClient_locks]
  · simp only [queueExclusive, send_clients, trackPending]
    apply modifyClient_congr
    simp only [maybeMarkIdle_clients, setLock_clients]
  · simp only [queueExclusive, send_deadlines, trackPending, modifyClient_deadlines, maybeMarkIdle_deadlines,
      setLock_deadlines]
  · refine (past_send client rfl).trans (past_eq ?_ ?_)
    · simp only [trackPending, modifyClient_sent, maybeMarkIdle_sent, setLock_sent]
    · simp only [trackPending, modifyClient_grants]
      rw [maybeMarkIdle_eq]
      rfl

theorem queueRw_comes {kind : PendingKind} (hj : r.joins = true) (hk : ∀ c, kind ≠ .composite c)
    (h : b.locks[key]? = some l) {answer : Response} (ha : answer.awarded = none) :
    b.Comes env (.request client r overrides)
      ((b.queueRw env client r.uuid key overrides kind l).send client answer) := by
  refine enqueue_comes env (p := rwPending client r.uuid overrides kind) false hj .refl h (fun c hc => absurd hc (hk c)) rfl rfl
    (fun u hu => .inl ?_) ?_ ?_ ?_ ?_ ?_
  · rw [← hu]
    unfold PendingRequest.reserved
    split
    · rename_i c hc; exact absurd hc (hk c)
    · rfl
  · simp only [queueRw, send_reads, trackPending, modifyClient_reads]
    exact maybeMarkIdle_reads env (b.setLock key _) key
  · simp only [queueRw, send_locks, trackPending, modifyClient_locks]
    rfl
  · simp only [queueRw, send_clients, trackPending]
    apply modifyClient_congr
    simp only [maybeMarkIdle_clients, setLock_clients]
  · simp only [queueRw, send_deadlines, trackPending, modifyClient_deadlines, maybeMarkIdle_deadlines,
      setLock_deadlines]
  · refine (past_send client ha).trans (past_eq ?_ ?_)
    · simp only [queueRw, trackPending, modifyClient_sent, maybeMarkIdle_sent, setLock_sent]
    · simp only [queueRw, trackPending, modifyClient_grants]
      rw [maybeMarkIdle_eq]
      rfl

theorem foldl_maybeMarkIdle_eq (env : Env) (keys : List String) (b : Broker) :
    (keys.foldl (fun b k => b.maybeMarkIdle env k) b).sent = b.sent ∧
    (keys.foldl (fun b k => b.maybeMarkIdle env k) b).grants = b.grants :=
  List.foldlRecOn (motive := fun b' : Broker => b'.sent = b.sent ∧ b'.grants = b.grants) keys _ ⟨rfl, rfl⟩
    fun b' h k _ => by rw [maybeMarkIdle_eq]; exact h

/-- What the loop of a composite grant did: the client has a stake in every key, under the token it collected. -/
structure MemberStakes (client : ClientId) (u : String) (keys : List String) (token : String → Nat)
    (acc acc' : MemberGrants) : Prop where
  queue : ∀ k, acc'.broker.locks.queueAt k = acc.broker.locks.queueAt k
  stake : ∀ k kd w, acc'.broker.locks.stakeAt k kd w = if k ∈ keys ∧ RwHoldKind.exclusive = kd ∧ u = w then
    some ⟨client, false, token k⟩ else acc.broker.locks.stakeAt k kd w
  tokens : ∀ k, acc'.tokens[k]? = if k ∈ keys then some (token k) else acc.tokens[k]?
  grants : (acc'.grants.map fun g => (g.key, g.lockUuid, g.token)) =
    (acc.grants.map fun g => (g.key, g.lockUuid, g.token)) ++ keys.map fun k => (k, u, token k)
  broker : acc'.broker = { acc.broker with locks := acc'.broker.locks, reads := acc'.broker.reads }
  reads : acc.broker.reads ≤ acc'.broker.reads

theorem grantMembers_stakes (env : Env) (client : ClientId) (uuid : String) (pid : Option Int) (u : String)
    (overrides : GrantOverrides) : ∀ (keys : List String) (idx : Nat) (acc : MemberGrants), keys.Nodup →
      ∃ token, MemberStakes client u keys token acc (grantMembers env client uuid pid u overrides keys idx acc)
  | [], _, acc, _ => ⟨fun _ => 0, fun _ => rfl, by simp [grantMembers], by simp [grantMembers], by simp [grantMembers], rfl,
      le_rfl⟩
  | k :: keys, idx, acc, hnd => by
    obtain ⟨hk, hnd⟩ := List.nodup_cons.1 hnd
    unfold grantMembers
    dsimp only
    let entry := acc.broker.lockOrDefault env k
    let terms : Terms := { mode := .member, pid, forced := overrides.token idx }
    let g : Grant := ⟨k, client, uuid, u, entry.2.fencingCounter,
      (entry.2.nextOrForcedFencingToken (overrides.token idx)).2⟩
    have hidle : acc.broker.Idles entry.1 := .lockOrDefault env acc.broker k
    have hget : entry.1.locks[k]? = some entry.2 := lockOrDefault_get env acc.broker k
    obtain ⟨token, hrest⟩ := grantMembers_stakes env client uuid pid u overrides keys (idx + 1)
      { broker := entry.1.setLock k (entry.2.take terms g)
        tokens := acc.tokens.insert k g.token
        maxToken := if g.token > acc.maxToken then g.token else acc.maxToken
        grants := acc.grants ++ [g] } hnd
    refine ⟨fun j => if k = j then g.token else token j, fun j => ?_, fun j kd w => ?_, fun j => ?_, ?_, ?_,
      hidle.reads.trans hrest.reads⟩
    · exact (hrest.queue j).trans ((queueAt_take hget j).trans (hidle.locks.queue j))
    · refine (hrest.stake j kd w).trans ?_
      have htake : LockTable.stakeAt (entry.1.locks.insert k (entry.2.take terms g)) j kd w =
          if j ∈ [k] ∧ RwHoldKind.exclusive = kd ∧ u = w then some ⟨client, false, g.token⟩
          else entry.1.locks.stakeAt j kd w := stakeAt_take (g := g) hget (by simp [terms]) rfl j kd w
      rw [setLock_locks, htake, hidle.locks.stake]
      by_cases hj : k = j
      · subst hj
        simp [hk]
      · simp [hj, Ne.symm hj]
    · refine (hrest.tokens j).trans ?_
      by_cases hj : k = j
      · subst hj
        simp [hk]
      · simp [hj, Ne.symm hj, OrdMap.get_insert_ne _ _ hj]
    · refine hrest.grants.trans ?_
      have htail : keys.map (fun j => (j, u, token j)) = keys.map fun j => (j, u, if k = j then g.token else token j) :=
        List.map_congr_left fun j hj => by rw [if_neg fun he : k = j => hk (he ▸ hj)]
      simp [htail, g]
    · refine hrest.broker.trans ?_
      rw [show entry.1 = _ from lockOrDefault_eq env acc.broker k]
      rfl

theorem grantCompositeNow_comes {keys : List String} (hr : requestCanGrant r = true) (hnd : keys.Nodup) :
    b.Comes env (.request client r overrides)
      ((b.unwrapOrNewV4 env overrides.lockUuid).1.grantCompositeNow env client r.uuid keys pid ttl
        (b.unwrapOrNewV4 env overrides.lockUuid).2 overrides) := by
  have hgives := b.unwrapOrNewV4_snd env overrides.lockUuid
  have hdrawn := unwrapOrNewV4_fst env b overrides.lockUuid
  have hle := b.unwrapOrNewV4_reads env overrides.lockUuid
  generalize b.unwrapOrNewV4 env overrides.lockUuid = drawn at *
  obtain ⟨token, hstakes⟩ := grantMembers_stakes env client r.uuid pid drawn.2 overrides keys 0 ⟨drawn.1, ∅, 0, []⟩ hnd
  unfold grantCompositeNow
  dsimp only
  generalize grantMembers env client r.uuid pid drawn.2 overrides keys 0 ⟨drawn.1, ∅, 0, []⟩ = acc at *
  -- the marks after the loop
  have hmarks := Idles.foldl (Idles.maybeMarkIdle env) keys
    ((acc.broker.observeFencingToken acc.maxToken).recordGrants acc.grants)
  have hrest := foldl_maybeMarkIdle_eq env keys ((acc.broker.observeFencingToken acc.maxToken).recordGrants acc.grants)
  generalize keys.foldl (fun b k => b.maybeMarkIdle env k)
    ((acc.broker.observeFencingToken acc.maxToken).recordGrants acc.grants) = marked at *
  have hclients : marked.clients = b.clients := by
    rw [hmarks.clients, recordGrants_clients, observeFencingToken_clients, hstakes.broker, hdrawn]
  have hdeadlines : marked.deadlines = b.deadlines := by
    rw [hmarks.deadlines, recordGrants_deadlines, observeFencingToken_deadlines, hstakes.broker, hdrawn]
  have hsent : marked.sent = b.sent := by
    rw [hrest.1, recordGrants_sent, observeFencingToken_sent, hstakes.broker, hdrawn]
  have hgrants : marked.grants = acc.grants.reverse ++ b.grants := by
    rw [hrest.2, recordGrants_grants, observeFencingToken_grants, hstakes.broker, hdrawn]
  have hreads : drawn.1.reads ≤ marked.reads := by
    refine hstakes.reads.trans (le_trans ?_ hmarks.reads)
    simp
  have hreads' : marked.reads ≤ ((marked.trackHolder client drawn.2 keys .exclusive).scheduleDeadline env ttl drawn.2
      keys .exclusive client).reads := by
    refine le_trans ?_ (scheduleDeadline_reads env _ _ _ _ _ _)
    simp only [trackHolder, modifyClient_reads, le_refl]
  refine award_comes ⟨keys, .exclusive⟩ drawn.2 false token acc.grants ttl hr
    (hgives.imp_right fun h => ⟨h.1, h.2.mono le_rfl (hreads.trans hreads')⟩) (hle.trans (hreads.trans hreads'))
    (fun k => ?_) (fun k kd w => ?_) ?_ ?_ ⟨rfl, ?_⟩ ?_ hstakes.grants ⟨_, congrArg (List.cons _) ?_⟩
  · simp only [send_locks, scheduleDeadline_locks, trackHolder, modifyClient_locks]
    rw [hmarks.locks.queue, recordGrants_locks, observeFencingToken_locks, hstakes.queue, hdrawn]
  · simp only [send_locks, scheduleDeadline_locks, trackHolder, modifyClient_locks]
    rw [hmarks.locks.stake, recordGrants_locks, observeFencingToken_locks, hstakes.stake, hdrawn]
    rfl
  · simp only [send_clients, scheduleDeadline_clients, trackHolder]
    exact modifyClient_congr hclients _ _
  · refine Schedules.within (scheduleDeadline_schedules env _ ttl drawn.2 keys client) ?_ ?_ le_rfl rfl
    · simp only [trackHolder, modifyClient_reads]
      exact hle.trans hreads
    · simp only [trackHolder, modifyClient_deadlines, hdeadlines]
  · simp only [Response.award, hstakes.tokens, Std.ExtTreeMap.getElem?_empty]
  · simp only [trackHolder, send_grants, scheduleDeadline_grants, modifyClient_grants, hgrants]
  · simp only [scheduleDeadline_sent, trackHolder, modifyClient_sent, hsent]

theorem queueComposite_comes {keys : List String} (hj : r.joins = true) (hs : keys.Pairwise (· < ·))
    (hlen : keys.length ≤ maxCompositeKeys) (hhead : keys.head? = some key) :
    b.Comes env (.request client r overrides)
      ((b.unwrapOrNewV4 env overrides.lockUuid).1.queueComposite env client r.uuid key keys pid ttl
        (b.unwrapOrNewV4 env overrides.lockUuid).2 overrides) := by
  have hgives := b.unwrapOrNewV4_snd env overrides.lockUuid
  have hdrawn := unwrapOrNewV4_fst env b overrides.lockUuid
  have hle := b.unwrapOrNewV4_reads env overrides.lockUuid
  generalize b.unwrapOrNewV4 env overrides.lockUuid = drawn at *
  have hidle : b.Idles (drawn.1.lockOrDefault env key).1 := by
    refine Idles.trans ?_ (.lockOrDefault env drawn.1 key)
    rw [hdrawn]
    exact ⟨.refl, rfl, rfl, rfl, hle⟩
  have hget := lockOrDefault_get env drawn.1 key
  have hreads := lockOrDefault_reads env drawn.1 key
  unfold queueComposite
  dsimp only
  generalize hp : (⟨r.uuid, client, pid, ttl, none, overrides.fencingSeed, false,
    .composite ⟨keys, keys, [], ∅, drawn.2⟩⟩ : PendingRequest) = p
  generalize drawn.1.lockOrDefault env key = entry at *
  have hmark := maybeMarkIdle_reads env (entry.1.setLock key (entry.2.push p)) key
  refine enqueue_comes env (p := p) false hj hidle hget ?_ (by rw [← hp]) (by rw [← hp]) ?_ ?_ ?_ ?_ ?_ ?_
  · subst hp
    intro c hc
    obtain rfl := PendingKind.composite.inj hc
    exact ⟨hs, hlen, hhead, rfl, rfl, rfl⟩
  · subst hp
    intro u hu
    obtain rfl := Option.some.inj hu
    refine hgives.imp_right fun h => ⟨h.1, h.2.mono le_rfl (hreads.trans ?_)⟩
    simpa only [send_reads, trackPending, modifyClient_reads, setLock_reads] using hmark
  · simp only [send_reads, trackPending, modifyClient_reads]
    exact hidle.reads.trans hmark
  · simp only [send_locks, trackPending, modifyClient_locks]
    rfl
  · subst hp
    simp only [send_clients, trackPending]
    apply modifyClient_congr
    simp only [maybeMarkIdle_clients, setLock_clients]
  · simp only [send_deadlines, trackPending, modifyClient_deadlines, maybeMarkIdle_deadlines, setLock_deadlines]
  · refine (past_send client rfl).trans (Eq.trans (past_eq ?_ ?_) hidle.past)
    · simp only [trackPending, modifyClient_sent, maybeMarkIdle_sent, setLock_sent]
    · simp only [trackPending, modifyClient_grants]
      rw [maybeMarkIdle_eq]
      rfl

/-! ## Requests -/

/-- The entry of a lock request, with its resolved `max`. -/
theorem setMax_idles (env : Env) (key : String) (currentMax : Nat) (max : Option Nat) :
    b.Idles (((b.resolveMax currentMax max).1.lockOrDefault env key).1.setLock key
        { ((b.resolveMax currentMax max).1.lockOrDefault env key).2 with
          max := (b.resolveMax currentMax max).2 }) := by
  have hmax : b.Idles (b.resolveMax currentMax max).1 := by
    rw [resolveMax_fst]
    exact ⟨.refl, rfl, rfl, rfl, le_rfl⟩
  refine hmax.trans ((Idles.lockOrDefault env _ key).trans ?_)
  exact ⟨.insert (lockOrDefault_get env _ key) rfl rfl, rfl, rfl, rfl, le_rfl⟩

theorem handleExclusiveLock_comes (hr : requestCanGrant r = true) (max : Option Nat) {wait : Bool}
    (hj : r.joins = wait) :
    b.Comes env (.request client r overrides)
      (b.handleExclusiveLock env client r.uuid key pid ttl max keepLocksAfterDeath force wait overrides) := by
  have hset := setMax_idles (b := b) env key ((b.locks[key]?.map (·.max)).getD b.config.maxLockHolders) max
  unfold handleExclusiveLock
  dsimp only
  generalize ((b.resolveMax ((b.locks[key]?.map (·.max)).getD b.config.maxLockHolders) max).1.lockOrDefault
    env key) = entry at *
  generalize (b.resolveMax ((b.locks[key]?.map (·.max)).getD b.config.maxLockHolders) max).2 = m at *
  split
  · exact .after hset (grantExclusiveNow_comes hr (by simp))
  · cases wait with
    | false => exact .of_idles hj (hset.send client rfl)
    | true => exact .after hset (queueExclusive_comes hj (by simp))

theorem handleRegisterRead_comes (hr : requestCanGrant r = true) (hj : r.joins = true) :
    b.Comes env (.request client r overrides) (b.handleRegisterRead env client r.uuid key overrides) := by
  have hentry := Idles.lockOrDefault env b key
  have hget := lockOrDefault_get env b key
  unfold handleRegisterRead
  dsimp only
  split
  · exact .after hentry (grantReadNow_comes hr hget)
  · exact .after hentry (queueRw_comes hj (by simp) hget rfl)

theorem handleRegisterWrite_comes (hr : requestCanGrant r = true) (hj : r.joins = true) :
    b.Comes env (.request client r overrides) (b.handleRegisterWrite env client r.uuid key overrides) := by
  have hentry := Idles.lockOrDefault env b key
  have hget := lockOrDefault_get env b key
  unfold handleRegisterWrite
  dsimp only
  split
  · rename_i hfree
    simp only [Bool.and_eq_true, Option.isNone_iff_eq_none] at hfree
    exact .after hentry (grantWriteNow_comes hr hget hfree.1.1)
  · exact .after hentry (queueRw_comes hj (by simp) hget rfl)

/-- A composite request comes in, and the queue it went to is kicked. -/
theorem handleCompositeLock_comes (hb : b.Sane) (hr : requestCanGrant r = true) (keys : List String) {wait : Bool}
    (hj : r.joins = (wait && !keys.isEmpty && keys.length ≤ maxCompositeKeys)) :
    b.Comes env (.request client r overrides)
      (b.handleCompositeLock env client r.uuid keys pid ttl wait overrides) := by
  unfold handleCompositeLock
  split
  · rename_i hbad
    refine .of_idles (hj.trans ?_) (Idles.refl.send client rfl)
    simp only [Bool.or_eq_true, decide_eq_true_eq] at hbad
    rcases hbad with hbad | hbad
    · simp [hbad]
    · simp [not_le.2 hbad]
  · rename_i hlen
    simp only [Bool.or_eq_true, decide_eq_true_eq, not_or, not_lt] at hlen
    have hsorted := Vec.pairwise_sortDedup keys
    have hlen' := (Vec.length_sortDedup_le keys).trans hlen.2
    split
    · -- a list with a key in it is not sorted to nothing
      rename_i hnone
      refine .of_idles (hj.trans ?_) .refl
      have hempty : keys = [] := List.eq_nil_iff_forall_not_mem.2 fun k hk => by
        rw [← Vec.mem_sortDedup, hnone] at hk
        cases hk
      simp [hempty]
    · rename_i head rest hkeys
      rw [hkeys] at hsorted hlen'
      dsimp only
      split
      · exact grantCompositeNow_comes hr (hsorted.imp ne_of_lt)
      · cases wait with
        | false =>
          refine .of_idles hj (Idles.send ?_ client rfl)
          rw [unwrapOrNewV4_fst]
          exact ⟨.refl, rfl, rfl, rfl, b.unwrapOrNewV4_reads env _⟩
        | true =>
          have hdoes : b.Does env overrides.lockUuid (Action.QueuesNow client r.uuid overrides (head :: rest))
              ((b.unwrapOrNewV4 env overrides.lockUuid).1.queueComposite env client r.uuid head (head :: rest) pid ttl
                (b.unwrapOrNewV4 env overrides.lockUuid).2 overrides) := queueComposite_does hsorted hlen' rfl
          have hjoins : r.joins = true := by
            simp [hj, hlen.1, hlen.2]
          exact (queueComposite_comes hjoins hsorted hlen' rfl).settles (.tryGrantNext env _ head) (hb.does hdoes)

end

end Broker

end LiveMutex
