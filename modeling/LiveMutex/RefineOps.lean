/-
Lock and register requests as runs of the lock table machine: what the
request itself does to the table (`Arrives`), and for a composite request that
has to wait the waking of its first key (`Cascade`).
-/
import LiveMutex.RefineGrant

namespace LiveMutex

namespace Action

/-- A request for these keys is granted on arrival. -/
def GrantsNow (client : ClientId) (requestUuid : String) (overrides : GrantOverrides) (keys : List String) :
    Action → Prop
  | .create k _ => k ∈ keys
  | .stamp .. => True
  | .grant g terms =>
    g.client = client ∧ g.requestUuid = requestUuid ∧ g.key ∈ keys ∧
      ∃ i < maxCompositeKeys, terms.forced = overrides.token i
  | _ => False

/-- A composite of these keys is queued behind the others. -/
def QueuesNow (client : ClientId) (requestUuid : String) (overrides : GrantOverrides) (keys : List String) :
    Action → Prop
  | .create k _ => k ∈ keys
  | .stamp .. => True
  | .enqueue k p first =>
    first = false ∧ p.isComposite = true ∧ p.client = client ∧ p.requestUuid = requestUuid ∧
      p.grantFencingSeed = overrides.fencingSeed ∧ k ∈ keys ∧ ∀ c, p.kind = .composite c → ∀ k' ∈ c.allKeys, k' ∈ keys
  | _ => False

/-- What a lock or register request for these keys does before anyone is woken. -/
def Arrives (client : ClientId) (requestUuid : String) (overrides : GrantOverrides) (keys : List String) :
    Action → Prop
  | .create k _ | .setMax k _ => k ∈ keys
  | .stamp .. => True
  | .grant g terms =>
    g.client = client ∧ g.requestUuid = requestUuid ∧ g.key ∈ keys ∧
      ∃ i < maxCompositeKeys, terms.forced = overrides.token i
  | .enqueue k p _ =>
    p.client = client ∧ p.requestUuid = requestUuid ∧ p.grantFencingSeed = overrides.fencingSeed ∧ k ∈ keys ∧
      ∀ c, p.kind = .composite c → ∀ k' ∈ c.allKeys, k' ∈ keys
  | _ => False

theorem GrantsNow.arrives {client : ClientId} {uuid : String} {overrides : GrantOverrides} {keys : List String}
    {a : Action} (h : a.GrantsNow client uuid overrides keys) : a.Arrives client uuid overrides keys := by
  cases a <;> first | exact h | exact False.elim h

theorem QueuesNow.arrives {client : ClientId} {uuid : String} {overrides : GrantOverrides} {keys : List String}
    {a : Action} (h : a.QueuesNow client uuid overrides keys) : a.Arrives client uuid overrides keys := by
  cases a with
  | enqueue k p first => exact h.2.2
  | _ => first | exact h | exact False.elim h

theorem GrantsNow.mono {client : ClientId} {uuid : String} {overrides : GrantOverrides} {keys keys' : List String}
    {a : Action} (h : a.GrantsNow client uuid overrides keys) (hk : ∀ k ∈ keys, k ∈ keys') :
    a.GrantsNow client uuid overrides keys' := by
  cases a with
  | create k l => exact hk k h
  | stamp k t => trivial
  | grant g terms => exact ⟨h.1, h.2.1, hk _ h.2.2.1, h.2.2.2⟩
  | _ => exact False.elim h

theorem QueuesNow.mono {client : ClientId} {uuid : String} {overrides : GrantOverrides} {keys keys' : List String}
    {a : Action} (h : a.QueuesNow client uuid overrides keys) (hk : ∀ k ∈ keys, k ∈ keys') :
    a.QueuesNow client uuid overrides keys' := by
  cases a with
  | create k l => exact hk k h
  | stamp k t => trivial
  | enqueue k p first =>
    obtain ⟨hf, hp, hc, hu, hs, hkey, hall⟩ := h
    exact ⟨hf, hp, hc, hu, hs, hk k hkey, fun c hc k' hk' => hk k' (hall c hc k' hk')⟩
  | _ => exact False.elim h

/-- What takes holders away, and of the waiters those that are `taken`. -/
def Releases (taken : String → String → Prop) : Action → Prop
  | .withdraw key x => taken key x
  | .release .. | .wipe .. => True
  | _ => False

def Detaches : Action → Prop
  | .detach .. => True
  | _ => False

def Prunes : Action → Prop
  | .prune .. => True
  | _ => False

end Action

namespace Broker

variable {env : Env} {given : Option String} {b b' : Broker}

/-- A change of one entry is one action. -/
theorem Does.setLock {ok : Action → Prop} {a : Action} {key : String} {l : LockState}
    (hs : Step b.config b.fencingWatermark b.locks a (b.locks.insert key l)) (ho : ok a)
    (hd : a.Drawn env given b.reads b.reads) (hg : a.grants = []) :
    b.Does env given ok (b.setLock key l) := by
  refine .single hs ho hd rfl le_rfl ?_ ?_
  · rw [hg]; rfl
  · rw [hg]; rfl

/-! ## Lock requests -/

section

variable {ok : Action → Prop} {client : ClientId} {uuid : String} {overrides : GrantOverrides}

theorem resolveMax_snd (currentLockMax : Nat) (requested : Option Nat) :
    1 ≤ (b.resolveMax currentLockMax requested).2 ∧
    (b.resolveMax currentLockMax requested).2 ≤ b.config.cap := by
  have hcap : 1 ≤ b.config.cap := Nat.le_max_right _ _
  unfold resolveMax
  split
  · exact ⟨Nat.le_max_right _ _, Nat.max_le.2 ⟨Nat.min_le_right _ _, hcap⟩⟩
  · exact ⟨Nat.le_max_right _ _, Nat.max_le.2 ⟨Nat.min_le_right _ _, hcap⟩⟩
  · rename_i m hm
    have h0 : m ≠ 0 := by rintro rfl; exact hm rfl
    dsimp only
    split
    · exact ⟨hcap, le_rfl⟩
    · rename_i h
      exact ⟨Nat.pos_of_ne_zero h0, not_lt.1 h⟩

/-- The grant a request gets on arrival. -/
def arrivalGrant (env : Env) (b : Broker) (client : ClientId) (uuid key : String)
    (overrides : GrantOverrides) (l : LockState) : Grant where
  key := key
  client := client
  requestUuid := uuid
  lockUuid := (b.unwrapOrNewV4 env overrides.lockUuid).2
  counter := l.fencingCounter
  token := (l.nextOrForcedFencingToken (overrides.token 0)).2

theorem arrivalGrant_grantsNow {key : String} {l : LockState} {terms : Terms} (hf : terms.forced = overrides.token 0) :
    (Action.grant (b.arrivalGrant env client uuid key overrides l) terms).GrantsNow client uuid overrides [key] :=
  ⟨rfl, rfl, by simp [arrivalGrant], 0, by decide, hf⟩

/-- A grant on arrival, and the stamp after it. -/
theorem arrival_run {key : String} {l : LockState} (terms : Terms) (h : b.locks[key]? = some l)
    (ha : l.admits terms.mode = true) (hf : terms.forced = overrides.token 0)
    (hgrant : ok (.grant (b.arrivalGrant env client uuid key overrides l) terms))
    (hstamp : ∀ at_, ok (.stamp key at_)) :
    b.Does env overrides.lockUuid ok
      (((b.unwrapOrNewV4 env overrides.lockUuid).1.putGrant
        (l.take terms (b.arrivalGrant env client uuid key overrides l))
        (b.arrivalGrant env client uuid key overrides l)).maybeMarkIdle env key) := by
  refine Does.trans ?_ (maybeMarkIdle_does env _ key hstamp)
  refine .single ?_ hgrant ?_ (by simp) ?_ (by simp; rfl) (by simp; rfl)
  · rw [putGrant_locks, unwrapOrNewV4_locks]
    exact .grant h ha ⟨rfl, by rw [hf]; rfl⟩
  · rw [putGrant_reads]
    exact b.unwrapOrNewV4_snd env overrides.lockUuid
  · rw [putGrant_reads]
    exact b.unwrapOrNewV4_reads env overrides.lockUuid

variable {key : String} {l : LockState} {pid : Option Int} {ttl : Option Duration}
  {keepLocksAfterDeath force : Bool}

/-- Bookkeeping and answers change nothing the machine sees. -/
theorem Does.after {b'' : Broker} (h : b.Does env given ok b')
    (hl : b''.locks = b'.locks) (hc : b''.config = b'.config) (hr : b'.reads ≤ b''.reads)
    (hg : b''.grants = b'.grants) (hw : b''.fencingWatermark = b'.fencingWatermark) :
    b.Does env given ok b'' :=
  h.trans (.same hl hc hr hg hw)

/-- The terms of an exclusive lock granted on arrival. -/
def exclusiveTerms (pid : Option Int) (keepLocksAfterDeath : Bool) (overrides : GrantOverrides) : Terms :=
  { mode := .exclusive, pid, keepLocksAfterDeath, forced := overrides.token 0 }

theorem grantExclusiveNow_run (h : b.locks[key]? = some l) (ha : l.admits .exclusive = true)
    (hgrant : ok (.grant (b.arrivalGrant env client uuid key overrides l)
      (exclusiveTerms pid keepLocksAfterDeath overrides)))
    (hstamp : ∀ at_, ok (.stamp key at_)) :
    b.Does env overrides.lockUuid ok
      (b.grantExclusiveNow env client uuid key pid ttl keepLocksAfterDeath overrides l) := by
  refine (arrival_run (exclusiveTerms pid keepLocksAfterDeath overrides) h ha rfl hgrant hstamp).after ?_ ?_ ?_ ?_ ?_
  · simp only [grantExclusiveNow, trackHolder, send_locks, scheduleDeadline_locks, modifyClient_locks]; rfl
  · simp only [grantExclusiveNow, trackHolder, send_config, scheduleDeadline_config, modifyClient_config]; rfl
  · refine le_trans ?_ (scheduleDeadline_reads env _ _ _ _ _ _)
    simp only [trackHolder, modifyClient_reads]; exact le_rfl
  · simp only [grantExclusiveNow, trackHolder, send_grants, scheduleDeadline_grants, modifyClient_grants]; rfl
  · simp only [grantExclusiveNow, trackHolder, send_fencingWatermark, scheduleDeadline_fencingWatermark,
      modifyClient_fencingWatermark]; rfl

theorem grantReadNow_run (h : b.locks[key]? = some l) (ha : l.admits .reader = true)
    (hgrant : ok (.grant (b.arrivalGrant env client uuid key overrides l)
      { mode := .reader, forced := overrides.token 0 }))
    (hstamp : ∀ at_, ok (.stamp key at_)) :
    b.Does env overrides.lockUuid ok (b.grantReadNow env client uuid key overrides l) := by
  refine (arrival_run { mode := .reader, forced := overrides.token 0 } h ha rfl hgrant hstamp).after ?_ ?_ ?_ ?_ ?_
  · simp only [grantReadNow, trackHolder, send_locks, modifyClient_locks]; rfl
  · simp only [grantReadNow, trackHolder, send_config, modifyClient_config]; rfl
  · simp only [grantReadNow, trackHolder, send_reads, modifyClient_reads]; exact le_rfl
  · simp only [grantReadNow, trackHolder, send_grants, modifyClient_grants]; rfl
  · simp only [grantReadNow, trackHolder, send_fencingWatermark, modifyClient_fencingWatermark]; rfl

theorem grantWriteNow_run (h : b.locks[key]? = some l) (ha : l.admits .writer = true)
    (hgrant : ok (.grant (b.arrivalGrant env client uuid key overrides l)
      { mode := .writer, forced := overrides.token 0 }))
    (hstamp : ∀ at_, ok (.stamp key at_)) :
    b.Does env overrides.lockUuid ok (b.grantWriteNow env client uuid key overrides l) := by
  refine (arrival_run { mode := .writer, forced := overrides.token 0 } h ha rfl hgrant hstamp).after ?_ ?_ ?_ ?_ ?_
  · simp only [grantWriteNow, trackHolder, send_locks, modifyClient_locks]; rfl
  · simp only [grantWriteNow, trackHolder, send_config, modifyClient_config]; rfl
  · simp only [grantWriteNow, trackHolder, send_reads, modifyClient_reads]; exact le_rfl
  · simp only [grantWriteNow, trackHolder, send_grants, modifyClient_grants]; rfl
  · simp only [grantWriteNow, trackHolder, send_fencingWatermark, modifyClient_fencingWatermark]; rfl

/-- A request is queued, and the stamp after it. -/
theorem enqueue_run {p : PendingRequest} (first : Bool) (h : b.locks[key]? = some l) (hp : p.Starts key)
    (hd : (Action.enqueue key p first).Drawn env given b.reads b.reads) (hqueue : ok (.enqueue key p first))
    (hstamp : ∀ at_, ok (.stamp key at_)) :
    b.Does env given ok ((b.setLock key (if first then l.pushFirst p else l.push p)).maybeMarkIdle env key) :=
  (Does.setLock (.enqueue h hp) hqueue hd rfl).trans (maybeMarkIdle_does env _ key hstamp)

/-- The request `handle_exclusive_lock` queues. -/
def exclusivePending (client : ClientId) (uuid : String) (pid : Option Int) (ttl : Option Duration)
    (keepLocksAfterDeath : Bool) (overrides : GrantOverrides) : PendingRequest :=
  ⟨uuid, client, pid, ttl, overrides.lockUuid, overrides.fencingSeed, keepLocksAfterDeath, .exclusive⟩

theorem queueExclusive_run (h : b.locks[key]? = some l)
    (hqueue : ok (.enqueue key (exclusivePending client uuid pid ttl keepLocksAfterDeath overrides) force))
    (hstamp : ∀ at_, ok (.stamp key at_)) :
    b.Does env overrides.lockUuid ok
      (b.queueExclusive env client uuid key pid ttl keepLocksAfterDeath force overrides l) := by
  refine (enqueue_run force h (by simp [PendingRequest.Starts, exclusivePending])
    ⟨fun u h => h, by simp [exclusivePending]⟩ hqueue hstamp).after ?_ ?_ ?_ ?_ ?_
  · simp only [queueExclusive, trackPending, send_locks, modifyClient_locks, exclusivePending]
  · simp only [queueExclusive, trackPending, send_config, modifyClient_config, exclusivePending]
  · simp only [queueExclusive, trackPending, send_reads, modifyClient_reads, exclusivePending, le_refl]
  · simp only [queueExclusive, trackPending, send_grants, modifyClient_grants, exclusivePending]
  · simp only [queueExclusive, trackPending, send_fencingWatermark, modifyClient_fencingWatermark, exclusivePending]

theorem queueRw_run {kind : PendingKind} (hk : ∀ c, kind ≠ .composite c) (h : b.locks[key]? = some l)
    (hqueue : ok (.enqueue key (rwPending client uuid overrides kind) false)) (hstamp : ∀ at_, ok (.stamp key at_)) :
    b.Does env overrides.lockUuid ok (b.queueRw env client uuid key overrides kind l) := by
  refine (enqueue_run false h (fun c hc => absurd hc (hk c)) ⟨fun u h => h, fun c hc => absurd hc (hk c)⟩ hqueue
    hstamp).after ?_ ?_ ?_ ?_ ?_
  · simp [queueRw, trackPending]
  · simp [queueRw, trackPending]
  · simp [queueRw, trackPending]
  · simp [queueRw, trackPending]
  · simp [queueRw, trackPending]

/-- The `max` a lock request gives its key. -/
def level (b : Broker) (key : String) (max : Option Nat) : Nat :=
  (b.resolveMax ((b.locks[key]?.map (·.max)).getD b.config.maxLockHolders) max).2

/-- The test of `handle_exclusive_lock`, on the state before: the key is new,
or has no writer and no readers and fewer holders than the request's `max`. -/
def admitsNow (b : Broker) (key : String) (max : Option Nat) : Bool :=
  b.locks[key]?.all fun l => l.writer.isNone && l.readers.isEmpty && l.exclusiveHolders.size < b.level key max

/-- The entry of a lock request, with its resolved `max`. -/
theorem setMax_run (key : String) (currentMax : Nat) (max : Option Nat) (hcreate : ∀ l, ok (.create key l))
    (hset : ok (.setMax key (b.resolveMax currentMax max).2)) :
    b.Does env given ok
      ((((b.resolveMax currentMax max).1.lockOrDefault env key).1.setLock key
        { ((b.resolveMax currentMax max).1.lockOrDefault env key).2 with
          max := (b.resolveMax currentMax max).2 })) := by
  have hsame : b.Does env given ok (b.resolveMax currentMax max).1 :=
    .same (by simp) (by simp) (by simp) (by simp) (by simp)
  have hentry : (b.resolveMax currentMax max).1.Does env given ok
      ((b.resolveMax currentMax max).1.lockOrDefault env key).1 := lockOrDefault_does env _ key hcreate
  refine (hsame.trans hentry).trans (Does.setLock (.setMax (lockOrDefault_get env _ key) ?_ ?_) hset trivial rfl)
  · exact (resolveMax_snd currentMax max).1
  · rw [(hsame.trans hentry).config]
    exact (resolveMax_snd currentMax max).2

theorem setMax_does (key : String) (currentMax : Nat) (max : Option Nat) :
    b.Does env given (Action.Arrives client uuid overrides [key])
      ((((b.resolveMax currentMax max).1.lockOrDefault env key).1.setLock key
        { ((b.resolveMax currentMax max).1.lockOrDefault env key).2 with
          max := (b.resolveMax currentMax max).2 })) :=
  setMax_run key currentMax max (fun _ => by simp [Action.Arrives]) (by simp [Action.Arrives])

theorem admits_entry (env : Env) (b : Broker) (key : String) (max : Option Nat) {b₀ : Broker}
    (h : b₀.locks = b.locks) :
    ((b₀.lockOrDefault env key).2.writer.isNone && (b₀.lockOrDefault env key).2.readers.isEmpty &&
      decide ((b₀.lockOrDefault env key).2.exclusiveHolders.size < b.level key max)) = b.admitsNow key max := by
  unfold admitsNow
  cases hl : b.locks[key]? with
  | none =>
    obtain ⟨hf, _⟩ := lockOrDefault_of_none env b₀ key (by rw [h]; exact hl)
    have hpos : 0 < b.level key max := (resolveMax_snd _ max).1
    simp [hf.writer, hf.readers, hf.exclusiveHolders, hpos]
  | some l => rw [lockOrDefault_of_some env b₀ key (by rw [h]; exact hl)]; rfl

/-- A lock request of one key, branch by branch. -/
theorem handleExclusiveLock_run (max : Option Nat) (wait : Bool) (hcreate : ∀ l, ok (.create key l))
    (hset : ok (.setMax key (b.level key max))) (hstamp : ∀ at_, ok (.stamp key at_))
    (hgrant : b.admitsNow key max = true → ∀ g, g.key = key → g.client = client → g.requestUuid = uuid →
      ok (.grant g (exclusiveTerms pid keepLocksAfterDeath overrides)))
    (hqueue : b.admitsNow key max = false → wait = true →
      ok (.enqueue key (exclusivePending client uuid pid ttl keepLocksAfterDeath overrides) force)) :
    b.Does env overrides.lockUuid ok
      (b.handleExclusiveLock env client uuid key pid ttl max keepLocksAfterDeath force wait overrides) := by
  have hadmits := b.admits_entry env key max (b.resolveMax_locks ((b.locks[key]?.map (·.max)).getD
    b.config.maxLockHolders) max)
  unfold level at hadmits
  unfold handleExclusiveLock
  dsimp only
  refine Does.trans (setMax_run key _ max hcreate hset) ?_
  generalize ((b.resolveMax ((b.locks[key]?.map (·.max)).getD b.config.maxLockHolders) max).1.lockOrDefault
    env key) = entry at *
  generalize (b.resolveMax ((b.locks[key]?.map (·.max)).getD b.config.maxLockHolders) max).2 = m at *
  split
  · rename_i ha
    refine grantExclusiveNow_run (by simp) ?_ (hgrant (hadmits ▸ ha) _ rfl rfl rfl) hstamp
    simp only [Bool.and_eq_true, decide_eq_true_eq] at ha
    simp only [LockState.admits, Bool.and_eq_true, decide_eq_true_eq]
    exact ⟨ha.1, (Nat.mod_le _ _).trans_lt ha.2⟩
  · rename_i ha
    split
    · exact .same rfl rfl le_rfl rfl rfl
    · rename_i hwait
      refine queueExclusive_run (by simp) (hqueue ?_ (by simpa using hwait)) hstamp
      rw [← hadmits]
      exact Bool.eq_false_iff.2 ha

theorem handleExclusiveLock_does (max : Option Nat) (wait : Bool) :
    b.Does env overrides.lockUuid (Action.Arrives client uuid overrides [key])
      (b.handleExclusiveLock env client uuid key pid ttl max keepLocksAfterDeath force wait overrides) := by
  refine handleExclusiveLock_run max wait (fun _ => by simp [Action.Arrives]) (by simp [Action.Arrives])
    (fun _ => trivial) ?_ ?_
  · intro _ g hk hc hu
    exact ⟨hc, hu, by simp [hk], 0, by decide, rfl⟩
  · intro _ _
    exact ⟨rfl, rfl, rfl, by simp, by simp [exclusivePending]⟩

/-- A read registration, branch by branch. -/
theorem handleRegisterRead_run (hcreate : ∀ l, ok (.create key l)) (hstamp : ∀ at_, ok (.stamp key at_))
    (hgrant : (b.locks[key]?.all fun l => l.queue.isEmpty) = true → ∀ g, g.key = key → g.client = client →
      g.requestUuid = uuid → ok (.grant g { mode := .reader, forced := overrides.token 0 }))
    (hqueue : ok (.enqueue key (rwPending client uuid overrides .reader) false)) :
    b.Does env overrides.lockUuid ok (b.handleRegisterRead env client uuid key overrides) := by
  have hentry : b.Does env overrides.lockUuid ok (b.lockOrDefault env key).1 :=
    lockOrDefault_does env b key hcreate
  unfold handleRegisterRead
  dsimp only
  split
  · rename_i ha
    simp only [Bool.and_eq_true] at ha
    refine hentry.trans (grantReadNow_run (lockOrDefault_get env b key) ?_ (hgrant ?_ _ rfl rfl rfl) hstamp)
    · simpa only [LockState.admits, Bool.and_eq_true] using ha.1
    · cases hl : b.locks[key]? with
      | none => rfl
      | some l => rw [lockOrDefault_of_some env b key hl] at ha; exact ha.2
  · exact hentry.trans ((queueRw_run (by simp) (lockOrDefault_get env b key) hqueue hstamp).after rfl rfl le_rfl rfl
      rfl)

theorem handleRegisterRead_does :
    b.Does env overrides.lockUuid (Action.Arrives client uuid overrides [key])
      (b.handleRegisterRead env client uuid key overrides) := by
  refine handleRegisterRead_run (fun _ => by simp [Action.Arrives]) (fun _ => trivial) ?_ ?_
  · intro _ g hk hc hu
    exact ⟨hc, hu, by simp [hk], 0, by decide, rfl⟩
  · exact ⟨rfl, rfl, rfl, by simp, by simp [rwPending]⟩

/-- A write registration, branch by branch. -/
theorem handleRegisterWrite_run (hcreate : ∀ l, ok (.create key l)) (hstamp : ∀ at_, ok (.stamp key at_))
    (hgrant : b.isFree key = true → ∀ g, g.key = key → g.client = client →
      g.requestUuid = uuid → ok (.grant g { mode := .writer, forced := overrides.token 0 }))
    (hqueue : ok (.enqueue key (rwPending client uuid overrides .writer) false)) :
    b.Does env overrides.lockUuid ok (b.handleRegisterWrite env client uuid key overrides) := by
  have hentry : b.Does env overrides.lockUuid ok (b.lockOrDefault env key).1 :=
    lockOrDefault_does env b key hcreate
  unfold handleRegisterWrite
  dsimp only
  split
  · rename_i ha
    refine hentry.trans (grantWriteNow_run (lockOrDefault_get env b key) ha (hgrant ?_ _ rfl rfl rfl) hstamp)
    unfold isFree
    cases hl : b.locks[key]? with
    | none => rfl
    | some l => rw [lockOrDefault_of_some env b key hl] at ha; exact ha
  · exact hentry.trans ((queueRw_run (by simp) (lockOrDefault_get env b key) hqueue hstamp).after rfl rfl le_rfl rfl
      rfl)

theorem handleRegisterWrite_does :
    b.Does env overrides.lockUuid (Action.Arrives client uuid overrides [key])
      (b.handleRegisterWrite env client uuid key overrides) := by
  refine handleRegisterWrite_run (fun _ => by simp [Action.Arrives]) (fun _ => trivial) ?_ ?_
  · intro _ g hk hc hu
    exact ⟨hc, hu, by simp [hk], 0, by decide, rfl⟩
  · exact ⟨rfl, rfl, rfl, by simp, by simp [rwPending]⟩

theorem vacant_lockOrDefault (env : Env) (h : b.isFree key = true) : (b.lockOrDefault env key).2.vacant = true := by
  cases hl : b.locks[key]? with
  | none =>
    obtain ⟨hf, _⟩ := b.lockOrDefault_of_none env key hl
    simp [LockState.vacant, hf.writer, hf.readers, hf.exclusiveHolders]
  | some l =>
    rw [b.lockOrDefault_of_some env key hl]
    simpa only [isFree, hl, LockState.vacant] using h

theorem isFree_congr {b b' : Broker} (h : b'.locks[key]? = b.locks[key]?) : b'.isFree key = b.isFree key := by
  unfold isFree
  rw [h]

/-- What the loop of a composite grant did: the table's run, and the tokens
it collected. -/
structure MemberRun (env : Env) (given : Option String) (client : ClientId) (uuid : String)
    (overrides : GrantOverrides) (all : List String) (lo : Nat) (acc acc' : MemberGrants) (as : List Action) :
    Prop where
  trace : Trace (Step acc.broker.config acc.broker.fencingWatermark) acc.broker.locks as acc'.broker.locks
  ok : ∀ a ∈ as, a.GrantsNow client uuid overrides all
  drawn : ∀ a ∈ as, a.Drawn env given lo acc'.broker.reads
  grants : acc'.grants = acc.grants ++ as.flatMap Action.grants
  maxToken : acc'.maxToken = raised acc.maxToken (as.flatMap Action.grants)
  broker : acc'.broker = { acc.broker with locks := acc'.broker.locks, reads := acc'.broker.reads }
  reads : acc.broker.reads ≤ acc'.broker.reads

theorem MemberRun.trans {all : List String} {lo : Nat} {acc acc' acc'' : MemberGrants} {as bs : List Action}
    (h₁ : MemberRun env given client uuid overrides all lo acc acc' as)
    (h₂ : MemberRun env given client uuid overrides all lo acc' acc'' bs) :
    MemberRun env given client uuid overrides all lo acc acc'' (as ++ bs) where
  trace := by
    have := h₂.trace
    rw [h₁.broker] at this
    exact h₁.trace.append this
  ok a hm := (List.mem_append.1 hm).elim (h₁.ok a) (h₂.ok a)
  drawn a hm := (List.mem_append.1 hm).elim (fun h => (h₁.drawn a h).mono le_rfl h₂.reads) (h₂.drawn a)
  grants := by rw [h₂.grants, h₁.grants]; simp
  maxToken := by rw [h₂.maxToken, h₁.maxToken, List.flatMap_append, raised_append]
  broker := by rw [h₂.broker, h₁.broker]
  reads := h₁.reads.trans h₂.reads

/-- One key of the loop. -/
theorem grantMember_run (env : Env) (client : ClientId) (uuid : String) (pid : Option Int) (lockUuid : String)
    (overrides : GrantOverrides) {all : List String} {lo : Nat} (k : String) (idx : Nat) (acc : MemberGrants)
    (hk : k ∈ all) (hidx : idx < maxCompositeKeys)
    (hfree : acc.broker.isFree k = true)
    (hu : given = some lockUuid ∨ given = none ∧ env.Drew lo acc.broker.reads lockUuid) :
    ∃ as, MemberRun env given client uuid overrides all lo acc
      (grantMembers env client uuid pid lockUuid overrides [k] idx acc) as := by
  have hvacant := vacant_lockOrDefault env hfree
  have hget := acc.broker.lockOrDefault_get env k
  have hreads := lockOrDefault_reads env acc.broker k
  have heq := lockOrDefault_eq env acc.broker k
  -- the entry is made, or is there
  obtain ⟨as, htrace, hcreate⟩ : ∃ as, Trace (Step acc.broker.config acc.broker.fencingWatermark)
      acc.broker.locks as (acc.broker.lockOrDefault env k).1.locks ∧ ∀ a ∈ as, ∃ l, a = .create k l := by
    cases hl : acc.broker.locks[k]? with
    | none =>
      obtain ⟨hf, he⟩ := acc.broker.lockOrDefault_of_none env k hl
      rw [he]
      exact ⟨[.create k _], .single (.create hl hf), by simp⟩
    | some l => rw [acc.broker.lockOrDefault_of_some env k hl]; exact ⟨[], .nil _, by simp⟩
  have hnil : as.flatMap Action.grants = [] := by
    rw [List.flatMap_eq_nil_iff]
    intro a ha
    obtain ⟨l, rfl⟩ := hcreate a ha
    rfl
  generalize hentry : acc.broker.lockOrDefault env k = entry at *
  let terms : Terms := { mode := .member, pid, forced := overrides.token idx }
  let g : Grant := ⟨k, client, uuid, lockUuid, entry.2.fencingCounter,
    (entry.2.nextOrForcedFencingToken (overrides.token idx)).2⟩
  have hstep : Step acc.broker.config acc.broker.fencingWatermark entry.1.locks (.grant g terms)
      (entry.1.locks.insert k (entry.2.take terms g)) := .grant hget hvacant ⟨rfl, rfl⟩
  refine ⟨as ++ [.grant g terms], ?_, ?_, ?_, ?_, ?_, ?_, ?_⟩
  · simp only [grantMembers, hentry]
    exact htrace.append (.single hstep)
  · intro a ha
    rcases List.mem_append.1 ha with ha | ha
    · obtain ⟨l, rfl⟩ := hcreate a ha
      exact hk
    · obtain rfl := List.mem_singleton.1 ha
      exact ⟨rfl, rfl, hk, idx, hidx, rfl⟩
  · intro a ha
    rcases List.mem_append.1 ha with ha | ha
    · obtain ⟨l, rfl⟩ := hcreate a ha
      trivial
    · obtain rfl := List.mem_singleton.1 ha
      simp only [grantMembers, hentry]
      exact hu.imp_right fun h => ⟨h.1, h.2.mono le_rfl hreads⟩
  · simp only [grantMembers, hentry, List.flatMap_append, hnil]; rfl
  · simp only [grantMembers, hentry, List.flatMap_append, hnil]
    show (if g.token > acc.maxToken then g.token else acc.maxToken) = Nat.max acc.maxToken g.token
    split
    · rename_i h; exact (max_eq_right h.le).symm
    · rename_i h; exact (max_eq_left (not_lt.1 h)).symm
  · simp only [grantMembers, hentry]
    rw [heq]
    rfl
  · simp only [grantMembers, hentry]
    exact hreads

theorem grantMembers_run (env : Env) (client : ClientId) (uuid : String) (pid : Option Int) (lockUuid : String)
    (overrides : GrantOverrides) {all : List String} {lo : Nat} :
    ∀ (keys : List String) (idx : Nat) (acc : MemberGrants), keys.Nodup →
      (∀ k ∈ keys, k ∈ all) → idx + keys.length ≤ maxCompositeKeys →
      (∀ k ∈ keys, acc.broker.isFree k = true) →
      (given = some lockUuid ∨ given = none ∧ env.Drew lo acc.broker.reads lockUuid) →
      ∃ as, MemberRun env given client uuid overrides all lo acc
        (grantMembers env client uuid pid lockUuid overrides keys idx acc) as
  | [], _, acc, _, _, _, _, _ =>
    ⟨[], .nil _, by simp, by simp, by simp [grantMembers], by simp [grantMembers], rfl, le_rfl⟩
  | k :: keys, idx, acc, hnd, hall, hidx, hfree, hu => by
    obtain ⟨hk, hnd⟩ := List.nodup_cons.1 hnd
    rw [List.length_cons] at hidx
    obtain ⟨as, has⟩ := grantMember_run env client uuid pid lockUuid overrides k idx acc (hall k (by simp))
      (by omega) (hfree k (by simp)) hu
    -- the keys differ, so the ones to come are still free
    have hfree' : ∀ k' ∈ keys,
        (grantMembers env client uuid pid lockUuid overrides [k] idx acc).broker.isFree k' = true := by
      intro k' hk'
      have hne : k ≠ k' := fun h => hk (h ▸ hk')
      rw [← hfree k' (List.mem_cons_of_mem _ hk')]
      apply isFree_congr
      simp only [grantMembers, setLock_locks]
      rw [OrdMap.get_insert_ne _ _ hne, lockOrDefault_get_ne env hne]
    obtain ⟨bs, hbs⟩ := grantMembers_run env client uuid pid lockUuid overrides keys (idx + 1) _ hnd
      (fun k hk => hall k (List.mem_cons_of_mem _ hk)) (by omega) hfree'
      (hu.imp_right fun h => ⟨h.1, h.2.mono le_rfl has.reads⟩)
    exact ⟨as ++ bs, has.trans hbs⟩

theorem raised_max (w : Nat) (gs : List Grant) : raised w gs = Nat.max w (raised 0 gs) := by
  induction gs generalizing w with
  | nil => exact (Nat.max_zero w).symm
  | cons g gs ih =>
    show raised (Nat.max w g.token) gs = Nat.max w (raised (Nat.max 0 g.token) gs)
    rw [ih (Nat.max w g.token), ih (Nat.max 0 g.token)]
    have h0 : Nat.max 0 g.token = g.token := Nat.zero_max _
    rw [h0]
    exact Nat.max_assoc _ _ _

/-- The grant at once of a composite request, from the broker before its uuid
was drawn. -/
theorem grantCompositeNow_does {keys : List String} (hnd : keys.Nodup) (hlen : keys.length ≤ maxCompositeKeys)
    (hfree : ∀ k ∈ keys, b.isFree k = true) :
    b.Does env overrides.lockUuid (Action.GrantsNow client uuid overrides keys)
      ((b.unwrapOrNewV4 env overrides.lockUuid).1.grantCompositeNow env client uuid keys pid ttl
        (b.unwrapOrNewV4 env overrides.lockUuid).2 overrides) := by
  generalize hdrawn : b.unwrapOrNewV4 env overrides.lockUuid = drawn
  have hreads : b.reads ≤ drawn.1.reads := hdrawn ▸ b.unwrapOrNewV4_reads env overrides.lockUuid
  have hlocks : drawn.1.locks = b.locks := by rw [← hdrawn]; simp
  have hconfig : drawn.1.config = b.config := by rw [← hdrawn]; simp
  have hmark : drawn.1.fencingWatermark = b.fencingWatermark := by rw [← hdrawn]; simp
  have hgrants : drawn.1.grants = b.grants := by rw [← hdrawn]; simp
  obtain ⟨as, has⟩ := grantMembers_run env client uuid pid drawn.2 overrides keys 0 ⟨drawn.1, ∅, 0, []⟩ hnd
    (fun _ h => h) (by simpa using hlen) (fun k hk => by rw [isFree_congr (b := b) (by rw [hlocks]), hfree k hk])
    (hdrawn ▸ b.unwrapOrNewV4_snd env overrides.lockUuid)
  unfold grantCompositeNow
  dsimp only
  generalize grantMembers env client uuid pid drawn.2 overrides keys 0 ⟨drawn.1, ∅, 0, []⟩ = acc at *
  -- the table's run, with the tokens recorded at its end
  have hrun : b.Does env overrides.lockUuid (Action.GrantsNow client uuid overrides keys)
      ((acc.broker.observeFencingToken acc.maxToken).recordGrants acc.grants) := by
    refine ⟨?_, ?_, as, ?_, has.ok, ?_, ?_, ?_⟩
    · rw [recordGrants_config, observeFencingToken_config, has.broker, hconfig]
    · simpa using hreads.trans has.reads
    · simpa only [recordGrants_locks, observeFencingToken_locks, hlocks, hconfig, hmark] using has.trace
    · simpa using has.drawn
    · simp only [recordGrants_grants, observeFencingToken_grants, has.grants, List.nil_append]
      rw [has.broker, hgrants]
    · simp only [recordGrants_fencingWatermark, observeFencingToken_fencingWatermark, has.maxToken]
      rw [has.broker, hmark, ← raised_max]
  refine (hrun.trans (Does.foldl (f := fun b k => b.maybeMarkIdle env k)
    (fun b k => b.maybeMarkIdle_does env k fun _ => trivial) keys _)).after ?_ ?_ ?_ ?_ ?_
  · simp only [trackHolder, send_locks, scheduleDeadline_locks, modifyClient_locks]
  · simp only [trackHolder, send_config, scheduleDeadline_config, modifyClient_config]
  · refine le_trans ?_ (scheduleDeadline_reads env _ _ _ _ _ _)
    simp only [trackHolder, modifyClient_reads, le_refl]
  · simp only [trackHolder, send_grants, scheduleDeadline_grants, modifyClient_grants]
  · simp only [trackHolder, send_fencingWatermark, scheduleDeadline_fencingWatermark,
      modifyClient_fencingWatermark]

/-- The waiter `handle_composite_lock` queues. -/
def compositePending (client : ClientId) (uuid : String) (keys : List String) (pid : Option Int)
    (ttl : Option Duration) (lockUuid : String) (overrides : GrantOverrides) : PendingRequest :=
  ⟨uuid, client, pid, ttl, none, overrides.fencingSeed, false, .composite ⟨keys, keys, [], ∅, lockUuid⟩⟩

/-- A composite request is queued on its first key, from the broker before its
uuid was drawn. -/
theorem queueComposite_run {keys : List String} (hs : keys.Pairwise (· < ·))
    (hlen : keys.length ≤ maxCompositeKeys) (hhead : keys.head? = some key) (hcreate : ∀ l, ok (.create key l))
    (hstamp : ∀ at_, ok (.stamp key at_))
    (hqueue : ok (.enqueue key (compositePending client uuid keys pid ttl
      (b.unwrapOrNewV4 env overrides.lockUuid).2 overrides) false)) :
    b.Does env overrides.lockUuid ok
      ((b.unwrapOrNewV4 env overrides.lockUuid).1.queueComposite env client uuid key keys pid ttl
        (b.unwrapOrNewV4 env overrides.lockUuid).2 overrides) := by
  have hdrew := b.unwrapOrNewV4_snd env overrides.lockUuid
  have hdraw : b.Does env overrides.lockUuid ok (b.unwrapOrNewV4 env overrides.lockUuid).1 :=
    .same (by simp) (by simp) (b.unwrapOrNewV4_reads env _) (by simp) (by simp)
  generalize b.unwrapOrNewV4 env overrides.lockUuid = drawn at *
  have hentry := hdraw.trans (drawn.1.lockOrDefault_does env key hcreate)
  have hreads := lockOrDefault_reads env drawn.1 key
  unfold queueComposite
  dsimp only
  unfold compositePending at hqueue
  generalize hp : (⟨uuid, client, pid, ttl, none, overrides.fencingSeed, false,
    .composite ⟨keys, keys, [], ∅, drawn.2⟩⟩ : PendingRequest) = p at hqueue ⊢
  have hstarts : p.Starts key := by
    subst hp
    intro c hc
    obtain rfl := PendingKind.composite.inj hc
    exact ⟨hs, hlen, hhead, rfl, rfl, rfl⟩
  have hset : b.Does env overrides.lockUuid ok
      ((drawn.1.lockOrDefault env key).1.setLock key ((drawn.1.lockOrDefault env key).2.push p)) := by
    refine hentry.snoc (a := .enqueue key p false) (.enqueue (lockOrDefault_get env drawn.1 key) hstarts)
      hqueue ?_ rfl le_rfl rfl rfl
    subst hp
    refine ⟨by simp, fun c hc => ?_⟩
    obtain rfl := PendingKind.composite.inj hc
    exact hdrew.imp_right fun h => ⟨h.1, h.2.mono le_rfl hreads⟩
  refine (hset.trans (maybeMarkIdle_does env _ key hstamp)).after ?_ ?_ ?_ ?_ ?_
  · simp only [trackPending, send_locks, modifyClient_locks]
  · simp only [trackPending, send_config, modifyClient_config]
  · simp only [trackPending, send_reads, modifyClient_reads, le_refl]
  · simp only [trackPending, send_grants, modifyClient_grants]
  · simp only [trackPending, send_fencingWatermark, modifyClient_fencingWatermark]

theorem queueComposite_does {keys : List String} (hs : keys.Pairwise (· < ·))
    (hlen : keys.length ≤ maxCompositeKeys) (hhead : keys.head? = some key) :
    b.Does env overrides.lockUuid (Action.QueuesNow client uuid overrides keys)
      ((b.unwrapOrNewV4 env overrides.lockUuid).1.queueComposite env client uuid key keys pid ttl
        (b.unwrapOrNewV4 env overrides.lockUuid).2 overrides) := by
  have hmem : key ∈ keys := List.mem_of_mem_head? hhead
  refine queueComposite_run hs hlen hhead (fun _ => hmem) (fun _ => trivial) ?_
  refine ⟨rfl, rfl, rfl, rfl, rfl, hmem, fun c hc k hk => ?_⟩
  obtain rfl := PendingKind.composite.inj hc
  exact hk

/-- A lock request of several keys, branch by branch. -/
theorem handleCompositeLock_run (keys : List String) (wait : Bool)
    (hgrant : (∀ k ∈ keys, b.isFree k = true) → ∀ a : Action, a.GrantsNow client uuid overrides keys → ok a)
    (hqueue : wait = true → ∀ a : Action, a.QueuesNow client uuid overrides keys → ok a)
    (hcascade : wait = true → ∀ a : Action, a.Cascade → ok a) :
    b.Does env overrides.lockUuid ok
      (b.handleCompositeLock env client uuid keys pid ttl wait overrides) := by
  unfold handleCompositeLock
  split
  · exact .same rfl rfl le_rfl rfl rfl
  · rename_i hlen
    simp only [Bool.or_eq_true, decide_eq_true_eq, not_or, not_lt] at hlen
    have hsorted := Vec.pairwise_sortDedup keys
    have hlen' := (Vec.length_sortDedup_le keys).trans hlen.2
    split
    · exact .refl
    · rename_i head rest hkeys
      rw [hkeys] at hsorted hlen'
      have hmem : ∀ k ∈ head :: rest, k ∈ keys := fun k hk => Vec.mem_sortDedup.1 (hkeys ▸ hk)
      dsimp only
      split
      · rename_i hfree
        refine (grantCompositeNow_does (hsorted.imp ne_of_lt) hlen' (by simpa using hfree)).mono fun a h => ?_
        refine hgrant (fun k hk => ?_) a (h.mono hmem)
        exact List.all_eq_true.1 hfree k (hkeys ▸ Vec.mem_sortDedup.2 hk)
      · split
        · exact .same (by simp) (by simp) (b.unwrapOrNewV4_reads env _) (by simp) (by simp)
        · rename_i hwait
          have hw : wait = true := by simpa using hwait
          exact ((queueComposite_does hsorted hlen' rfl).mono fun a h => hqueue hw a (h.mono hmem)).trans
            ((tryGrantNext_does env _ head).mono (hcascade hw))

theorem handleCompositeLock_does (keys : List String) (wait : Bool) :
    b.Does env overrides.lockUuid (fun a => a.Arrives client uuid overrides keys ∨ a.Cascade)
      (b.handleCompositeLock env client uuid keys pid ttl wait overrides) :=
  handleCompositeLock_run keys wait (fun _ _ h => .inl h.arrives) (fun _ _ h => .inl h.arrives) fun _ _ h => .inr h

end

end Broker

end LiveMutex
