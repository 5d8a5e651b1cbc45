/-
No missed wake-up: after every operation, the head of every queue is one that
cannot be granted, as long as no lock request changes the `max` of its key.

The cascade of `try_grant_next` starts with more fuel than the keys all
waiters together still need, and every grant needs one key less, so it ends
because the head of the queue cannot be granted. What it does on the way to
other keys leaves settled queues settled.
-/
import LiveMutex.Sane

namespace LiveMutex

/-! ## The weight of a table -/

/-- How many keys all waiters of the table still need. -/
def LockTable.weight (t : LockTable) : Nat := t.sumBy LockState.weight

namespace LockState

theorem weight_push_le (l : LockState) (p : PendingRequest) : (l.push p).weight ≤ l.weight + p.weight := by
  unfold weight push
  rw [LinkedQueue.entries_pushBack]
  split
  · exact Nat.le_add_right _ _
  · simp

theorem weight_pop {l : LockState} {x : String} {p : PendingRequest} (h : l.queue.front = some (x, p)) :
    l.pop.weight + p.weight = l.weight := by
  unfold weight pop
  rw [LinkedQueue.entries_popFront]
  unfold LinkedQueue.front at h
  cases hq : l.queue.entries with
  | nil => rw [hq] at h; cases h
  | cons e es =>
    rw [hq] at h
    obtain rfl := Option.some.inj h
    simp [Nat.add_comm]

@[simp] theorem weight_take (l : LockState) (terms : Terms) (g : Grant) :
    (l.take terms g).weight = l.weight := by
  unfold weight
  rw [take_queue]

end LockState

namespace LockTable

variable {t : LockTable} {key : String} {l : LockState}

theorem weight_insert_of_some (l' : LockState) (h : t[key]? = some l) : weight (t.insert key l') + l.weight = weight t + l'.weight := by
  have := OrdMap.sumBy_insert LockState.weight t key l'
  rw [h] at this
  exact this

theorem weight_insert_of_none (l' : LockState) (h : t[key]? = none) : weight (t.insert key l') = weight t + l'.weight := by
  have := OrdMap.sumBy_insert LockState.weight t key l'
  rw [h] at this
  exact this

end LockTable

/-- Every grant of the cascade needs one key less. -/
theorem Step.weight_le {cfg : BrokerConfig} {floor : Nat} {t t' : LockTable} {a : Action}
    (h : Step cfg floor t a t') (ha : a.Cascade) :
    LockTable.weight t' + a.grants.length ≤ LockTable.weight t := by
  -- the head takes the key and leaves the queue
  have taken : ∀ {g : Grant} {p : PendingRequest} {l : LockState}, t[g.key]? = some l → g.For p l →
      LockTable.weight (t.insert g.key (l.pop.take (p.terms g.key) g)) + p.weight = LockTable.weight t := by
    intro g p l hl hg
    obtain ⟨x, hx⟩ := hg.front
    have h1 := LockTable.weight_insert_of_some (l.pop.take (p.terms g.key) g) hl
    have h2 := LockState.weight_pop hx
    rw [LockState.weight_take] at h1
    omega
  cases h with
  | @stamp key l at_ h _ =>
    have := LockTable.weight_insert_of_some { l with timestampEmptied := at_ } h
    have hw : LockState.weight { l with timestampEmptied := at_ } = l.weight := rfl
    simp only [Action.grants, List.length_nil]
    omega
  | @grantHead g p l h hp hg _ =>
    have := taken h hg
    have hw : p.weight = 1 := by
      unfold PendingRequest.isComposite at hp
      unfold PendingRequest.weight
      cases hk : p.kind <;> simp_all
    simp only [Action.grants, List.length_singleton]
    omega
  | @finish g p c l h hp hr hg _ =>
    have := taken h hg
    have hw : p.weight = 1 := by simp [PendingRequest.weight, hp, hr]
    simp only [Action.grants, List.length_singleton]
    omega
  | @advance g p c next rest l l' h hp hr hg _ h' =>
    have h1 := taken h hg
    have hw : p.weight = rest.length + 2 := by simp [PendingRequest.weight, hp, hr]
    have hw' : (p.moved (c.advance g.key g.token)).weight = rest.length + 1 := by
      simp [PendingRequest.weight, PendingRequest.moved, Composite.advance, hr]
    have h3 := l'.weight_push_le (p.moved (c.advance g.key g.token))
    simp only [Action.grants, List.length_singleton]
    rcases h' with h' | ⟨h', hl⟩
    · have h2 := LockTable.weight_insert_of_some (l'.push (p.moved (c.advance g.key g.token))) h'
      omega
    · have h2 := LockTable.weight_insert_of_none (l'.push (p.moved (c.advance g.key g.token))) h'
      have hw0 : l'.weight = 0 := by unfold LockState.weight; rw [hl.queue]; rfl
      omega
  | _ => exact ha.elim

theorem Broker.Does.weight_le {env : Env} {given : Option String} {b b' : Broker}
    (h : b.Does env given Action.Cascade b') :
    b'.weight + b'.grants.length ≤ b.weight + b.grants.length := by
  obtain ⟨as, has⟩ := h.run
  have hw : LockTable.weight b'.locks + (([] ++ as).flatMap Action.grants).length ≤ LockTable.weight b.locks := by
    refine has.trace.inv_log (I := fun log t => LockTable.weight t + (log.flatMap Action.grants).length ≤
      LockTable.weight b.locks) (fun log t a t' hm hs hi => ?_) (by simp)
    have := hs.weight_le (has.ok a hm)
    simp only [List.flatMap_append, List.length_append, List.flatMap_singleton]
    omega
  rw [has.grants, List.length_append, List.length_reverse]
  rw [List.nil_append] at hw
  unfold Broker.weight
  unfold LockTable.weight at hw
  omega

/-! ## The cascade settles its key -/

/-- The head of the queue of `key`, if there is one, cannot be granted. -/
def Broker.Settled (b : Broker) (key : String) : Prop := ∀ l p, ¬b.CanGrant key l p

namespace Broker

variable {env : Env} {given : Option String} {b b' : Broker} {key : String} {l : LockState}

theorem CanGrant.congr {p : PendingRequest} (h : b.CanGrant key l p) (hk : b'.locks[key]? = b.locks[key]?) :
    b'.CanGrant key l p :=
  { h with get := hk.trans h.get }

theorem Settled.congr (h : b.Settled key) (hk : b'.locks[key]? = b.locks[key]?) : b'.Settled key :=
  fun l p hc => h l p (hc.congr hk.symm)

theorem Settled.maybeMarkIdle {k : String} (h : b.Settled k) : (b.maybeMarkIdle env key).Settled k := by
  rcases b.maybeMarkIdle_locks env key with he | ⟨l, at_, hl, _, he⟩
  · exact h.congr (by rw [he])
  · intro m p hc
    by_cases hk : key = k
    · subst hk
      have hm := hc.get
      rw [he, OrdMap.get_insert, if_pos rfl] at hm
      obtain rfl := Option.some.inj hm
      refine h l p ⟨hl, hc.front, ?_, hc.stands⟩
      have ha := hc.admits
      cases hmode : (p.terms key).mode <;> rw [hmode] at ha <;> exact ha
    · exact h m p (hc.congr (by rw [he, OrdMap.get_insert_ne _ _ hk]))

/-- **The cascade settles its key** and unsettles none. -/
theorem tryGrantLoop_settled : ∀ (fuel : Nat) (b : Broker) (key : String), b.weight < fuel → b.Sane →
    (b.tryGrantLoop env fuel key).Settled key ∧
    ∀ k, k ≠ key → b.Settled k → (b.tryGrantLoop env fuel key).Settled k
  | 0, _, _, hw, _ => absurd hw (Nat.not_lt_zero _)
  | fuel + 1, b, key, hw, hs => by
    unfold tryGrantLoop
    dsimp only
    rcases b.tryGrantOnce_cases env (tryGrantLoop env fuel) key with ⟨he, hstuck⟩ | ⟨l, p, hc, he⟩
    · rw [he]
      exact ⟨Settled.maybeMarkIdle hstuck, fun k _ h => h.maybeMarkIdle⟩
    · rw [he]
      have hdoes : b.Does env none Action.Cascade (b.grantHead env key l p).1 := grantHead_does hc
      have hs₁ := hs.does hdoes
      have hw₁ : (b.grantHead env key l p).1.weight < fuel := by
        have := hdoes.weight_le
        rw [grantHead_grants hc, List.length_cons] at this
        omega
      cases hn : (b.grantHead env key l p).2 with
      | none =>
        obtain ⟨hkey, hother⟩ := tryGrantLoop_settled fuel _ key hw₁ hs₁
        exact ⟨hkey, fun k hk h => hother k hk (h.congr (grantHead_get_ne hc hk (by simp [hn])))⟩
      | some next =>
        -- the composite went on to a greater key, which is settled first
        obtain ⟨c, rest, hp, hr⟩ := grantHead_next hc hn
        obtain ⟨x, hx⟩ := hc.front
        have hwf := hs.composites key l hc.get _ (List.mem_of_mem_head? hx) c hp
        have hne : next ≠ key := by
          have hsorted := hwf.sorted
          rw [hwf.split, List.pairwise_append, hr] at hsorted
          exact ((List.pairwise_cons.1 hsorted.2.1).1 next (by simp)).ne'
        obtain ⟨hnext, hother₁⟩ := tryGrantLoop_settled fuel _ next hw₁ hs₁
        have hdoes₂ := tryGrantLoop_does env none fuel (b.grantHead env key l p).1 next
        have hw₂ : ((b.grantHead env key l p).1.tryGrantLoop env fuel next).weight < fuel := by
          obtain ⟨as, has⟩ := hdoes₂.run
          have := hdoes₂.weight_le
          rw [has.grants, List.length_append] at this
          omega
        obtain ⟨hkey, hother₂⟩ := tryGrantLoop_settled fuel _ key hw₂ (hs₁.does hdoes₂)
        refine ⟨hkey, fun k hk h => ?_⟩
        by_cases hkn : k = next
        · exact hkn ▸ hother₂ next hne hnext
        · refine hother₂ k hk (hother₁ k hkn (h.congr (grantHead_get_ne hc hk ?_)))
          rw [hn]
          exact fun he => hkn (Option.some.inj he).symm

theorem tryGrantNext_settled (env : Env) (hs : b.Sane) (key : String) :
    (b.tryGrantNext env key).Settled key ∧
    ∀ k, k ≠ key → b.Settled k → (b.tryGrantNext env key).Settled k :=
  tryGrantLoop_settled _ b key (Nat.lt_succ_self _) hs

/-- A wake-up of a key: it settles the key and unsettles none. -/
structure WakesUp (env : Env) (wake : Broker → String → Broker) : Prop where
  does (b : Broker) (key : String) : b.Does env none Action.Cascade (wake b key)
  settles {b : Broker} (key : String) : b.Sane →
    (wake b key).Settled key ∧ ∀ k, k ≠ key → b.Settled k → (wake b key).Settled k

theorem wakesUp_tryGrantNext (env : Env) : WakesUp env (fun b key => b.tryGrantNext env key) where
  does b key := tryGrantNext_does env b key
  settles key hs := tryGrantNext_settled env hs key

theorem wakesUp_maybeMarkIdle (env : Env) :
    WakesUp env (fun b key => (b.maybeMarkIdle env key).tryGrantNext env key) where
  does b key := (maybeMarkIdle_does env b key fun _ => trivial).trans (tryGrantNext_does env _ key)
  settles {b} key hs := by
    have hmark : b.Does env none Action.Cascade (b.maybeMarkIdle env key) :=
      maybeMarkIdle_does env b key fun _ => trivial
    have hnext := tryGrantNext_settled env (hs.does hmark) key
    exact ⟨hnext.1, fun k hk h => hnext.2 k hk h.maybeMarkIdle⟩

/-- Waking every key that may be unsettled settles the broker. -/
theorem WakesUp.foldl {wake : Broker → String → Broker} (hw : WakesUp env wake) :
    ∀ (keys : List String) (b : Broker), b.Sane → (∀ k, k ∉ keys → b.Settled k) →
      ∀ k, (keys.foldl wake b).Settled k
  | [], _, _, h, k => h k (by simp)
  | key :: keys, b, hs, h, k => by
    refine hw.foldl keys (wake b key) (hs.does (hw.does b key)) (fun k hk => ?_) k
    obtain ⟨h1, h2⟩ := hw.settles key hs
    by_cases he : k = key
    · exact he ▸ h1
    · exact h2 k he (h k (by simp [he, hk]))

end Broker

/-! ## Arrivals -/

/-- The head of the queue cannot be granted `key`. -/
def LockState.Settled (key : String) (l : LockState) : Prop :=
  ∀ x p, l.queue.front = some (x, p) → l.admits (p.terms key).mode = false

namespace LockState

variable {cfg : BrokerConfig} {key : String} {l : LockState}

/-- One more hold lets nobody in who was kept out. -/
theorem admits_take {terms : Terms} {g : Grant} {m : Mode} (hs : l.Sound cfg) (ha : l.admits terms.mode = true)
    (hm : l.admits m = false) : (l.take terms g).admits m = false := by
  have vacant_admits (hv : l.vacant = true) : l.admits m = true := by
    have hpos := hs.max_pos
    simp only [vacant, Bool.and_eq_true] at hv
    have hsize : l.exclusiveHolders.size = 0 := OrdMap.size_eq_zero_iff.2 hv.2
    cases m <;> simp [admits, vacant, hv.1.1, hv.1.2, hv.2, hsize, asU32]
    omega
  unfold LockState.take
  dsimp only
  rw [nextOrForcedFencingToken_eq]
  cases hmode : terms.mode <;> rw [hmode] at ha
  case exclusive =>
    cases m
    case exclusive => rw [ha] at hm; cases hm
    all_goals simp [admits, vacant, holdExclusive]
  case member => rw [vacant_admits ha] at hm; cases hm
  case reader =>
    cases m
    case reader => rw [ha] at hm; cases hm
    all_goals simp [admits, vacant, holdReader]
  case writer => rw [vacant_admits ha] at hm; cases hm

theorem Settled.take {terms : Terms} {g : Grant} (h : l.Settled key) (hs : l.Sound cfg)
    (ha : l.admits terms.mode = true) : (l.take terms g).Settled key := by
  intro x p hq
  rw [take_queue] at hq
  exact admits_take hs ha (h x p hq)

theorem Settled.stamp (h : l.Settled key) (at_ : Option Instant) :
    LockState.Settled key { l with timestampEmptied := at_ } := by
  intro x p hq
  have hadm := h x p hq
  cases hm : (p.terms key).mode <;> rw [hm] at hadm <;> exact hadm

theorem Settled.of_empty (h : l.queue.entries = []) : l.Settled key := by
  intro x p hq
  simp [LinkedQueue.front, h] at hq

/-- A request that has to wait is queued. -/
theorem Settled.push {p : PendingRequest} (h : l.Settled key)
    (hp : l.queue.entries = [] → l.admits (p.terms key).mode = false) : (l.push p).Settled key := by
  intro x p' hq
  have hfront : (l.push p).queue.front = (l.queue.pushBack p.requestUuid p).1.front := rfl
  rw [hfront, LinkedQueue.front_pushBack] at hq
  split at hq
  · rename_i he
    cases hq
    exact hp he
  · exact h x p' hq

theorem Settled.pushFirst {p : PendingRequest} (h : l.Settled key) (hp : l.admits (p.terms key).mode = false) :
    (l.pushFirst p).Settled key := by
  intro x p' hq
  have hfront : (l.pushFirst p).queue.front = (l.queue.pushFront p.requestUuid p).1.entries.head? := rfl
  rw [hfront, LinkedQueue.entries_pushFront] at hq
  split at hq
  · exact h x p' hq
  · cases hq
    exact hp

end LockState

namespace Broker

variable {env : Env} {given : Option String} {b b' : Broker} {key : String} {l : LockState}

/-- Every queue of the broker has a head that cannot be granted. -/
def Quiet (b : Broker) : Prop := AllLocks LockState.Settled b.locks

theorem Sane.quiet_iff (hs : b.Sane) : b.Quiet ↔ ∀ key, b.Settled key := by
  constructor
  · intro h key l p hc
    obtain ⟨x, hx⟩ := hc.front
    have := h key l hc.get x p hx
    rw [hc.admits] at this
    cases this
  · intro h key l hl x p hx
    rw [← Bool.not_eq_true]
    intro ha
    exact h key l p ⟨hl, ⟨x, hx⟩, ha, fun c hc =>
      (hs.composites key l hl _ (List.mem_of_mem_head? hx) c hc).head⟩

theorem Quiet.maybeMarkIdle (env : Env) (h : b.Quiet) (key : String) : (b.maybeMarkIdle env key).Quiet := by
  rcases b.maybeMarkIdle_locks env key with he | ⟨l, at_, hl, _, he⟩
  · unfold Quiet; rw [he]; exact h
  · unfold Quiet
    rw [he]
    exact h.insert ((h key l hl).stamp at_)

theorem Quiet.lockOrDefault (env : Env) (h : b.Quiet) (key : String) : (b.lockOrDefault env key).1.Quiet := by
  cases hl : b.locks[key]? with
  | none =>
    obtain ⟨hf, he⟩ := b.lockOrDefault_of_none env key hl
    rw [he]
    exact h.insert (.of_empty (by rw [hf.queue]; rfl))
  | some l => rw [b.lockOrDefault_of_some env key hl]; exact h

theorem Quiet.congr (h : b.Quiet) (hl : b'.locks = b.locks) : b'.Quiet := by
  unfold Quiet
  rw [hl]
  exact h

theorem Quiet.setLock (h : b.Quiet) (hl : l.Settled key) : (b.setLock key l).Quiet := h.insert hl

/-- A grant on arrival unsettles no queue. -/
theorem Quiet.grantsNow {client : ClientId} {uuid : String} {overrides : GrantOverrides} {keys : List String}
    (h : b.Quiet) (hs : b.Sane) (hd : b.Does env given (Action.GrantsNow client uuid overrides keys) b') :
    b'.Quiet := by
  have hall : AllLocks (fun k l => l.Sound b.config ∧ l.Settled k) b'.locks := by
    refine hd.inv (fun t a t' ha hst ht => ?_) fun k l hl => ⟨hs.sound k l hl, h k l hl⟩
    cases hst with
    | create _ hl => exact ht.insert ⟨.of_fresh hl, .of_empty (by rw [hl.queue]; rfl)⟩
    | stamp hk _ =>
      obtain ⟨hsound, hsettled⟩ := ht _ _ hk
      exact ht.insert ⟨hsound.congr rfl rfl rfl hsound.max_pos hsound.max_le, hsettled.stamp _⟩
    | grant hk hadm _ =>
      obtain ⟨hsound, hsettled⟩ := ht _ _ hk
      exact ht.insert ⟨hsound.take hadm, hsettled.take hsound hadm⟩
    | _ => exact False.elim ha
  exact fun k l hl => (hall k l hl).2

/-! ## Lock and register requests -/

section

variable {client : ClientId} {uuid : String} {overrides : GrantOverrides} {pid : Option Int}
  {ttl : Option Duration} {keepLocksAfterDeath force : Bool}

/-- Without a request for another one, the `max` of a key stays. -/
theorem resolveMax_unchanged (hs : b.Sane) (hl : b.locks[key]? = some l) {max : Option Nat}
    (hmax : ∀ m, max = some m → m = l.max) : (b.resolveMax l.max max).2 = l.max := by
  have hsound := hs.sound key l hl
  unfold resolveMax
  split
  · dsimp only
    rw [show Nat.min l.max b.config.cap = l.max from min_eq_left hsound.max_le]
    exact max_eq_left hsound.max_pos
  · exact absurd (hmax 0 rfl) (by have := hsound.max_pos; omega)
  · rename_i m _
    obtain rfl := hmax m rfl
    dsimp only
    rw [if_neg (not_lt.2 hsound.max_le)]

theorem queueExclusive_quiet (h : b.Quiet) (hl : b.locks[key]? = some l) (ha : l.admits .exclusive = false) :
    (b.queueExclusive env client uuid key pid ttl keepLocksAfterDeath force overrides l).Quiet := by
  have hset : l.Settled key := h key l hl
  let p : PendingRequest :=
    ⟨uuid, client, pid, ttl, overrides.lockUuid, overrides.fencingSeed, keepLocksAfterDeath, .exclusive⟩
  have hpush : LockState.Settled key (if force then l.pushFirst p else l.push p) := by
    split
    · exact hset.pushFirst ha
    · exact hset.push fun _ => ha
  exact ((h.setLock hpush).maybeMarkIdle env key).congr (by simp [queueExclusive, trackPending, p])

theorem queueRw_quiet {kind : PendingKind} (h : b.Quiet) (hl : b.locks[key]? = some l)
    (ha : l.queue.entries = [] → l.admits ((rwPending client uuid overrides kind).terms key).mode = false) :
    (b.queueRw env client uuid key overrides kind l).Quiet := by
  exact ((h.setLock ((h key l hl).push ha)).maybeMarkIdle env key).congr (by simp [queueRw, trackPending])

theorem handleExclusiveLock_quiet (hs : b.Sane) (h : b.Quiet) {max : Option Nat} (wait : Bool)
    (hmax : ∀ m l, max = some m → b.locks[key]? = some l → m = l.max) :
    (b.handleExclusiveLock env client uuid key pid ttl max keepLocksAfterDeath force wait overrides).Quiet := by
  have hdoes : b.Does env none (Action.Arrives client uuid overrides [key]) _ :=
    setMax_does key ((b.locks[key]?.map (·.max)).getD b.config.maxLockHolders) max
  have hs₀ := hs.does hdoes
  have hentry : (b.resolveMax ((b.locks[key]?.map (·.max)).getD b.config.maxLockHolders) max).1.Quiet :=
    h.congr (by simp)
  have hq₀ := hentry.lockOrDefault env key
  -- the entry's own `max`, or a fresh entry
  have hset : LockState.Settled key
      { ((b.resolveMax ((b.locks[key]?.map (·.max)).getD b.config.maxLockHolders) max).1.lockOrDefault env
          key).2 with
        max := (b.resolveMax ((b.locks[key]?.map (·.max)).getD b.config.maxLockHolders) max).2 } := by
    cases hl : b.locks[key]? with
    | none =>
      refine .of_empty ?_
      have := (lockOrDefault_of_none env (b.resolveMax b.config.maxLockHolders max).1 key (by simpa using hl)).1
      simp only [Option.map_none, Option.getD_none]
      rw [this.queue]; rfl
    | some l =>
      simp only [Option.map_some, Option.getD_some]
      rw [lockOrDefault_of_some env _ key (by simpa using hl),
        resolveMax_unchanged hs hl fun m hm => hmax m l hm hl]
      exact h key l hl
  unfold handleExclusiveLock
  dsimp only
  generalize (b.resolveMax ((b.locks[key]?.map (·.max)).getD b.config.maxLockHolders) max).1.lockOrDefault
    env key = entry at *
  generalize (b.resolveMax ((b.locks[key]?.map (·.max)).getD b.config.maxLockHolders) max).2 = m at *
  have hquiet := hq₀.setLock hset
  have hget : (entry.1.setLock key { entry.2 with max := m }).locks[key]? = some { entry.2 with max := m } := by
    simp
  have hsound := hs₀.sound key _ hget
  split
  · rename_i ha
    refine hquiet.grantsNow hs₀ (grantExclusiveNow_run hget ?_ (arrivalGrant_grantsNow rfl) fun _ => trivial)
    simp only [Bool.and_eq_true, decide_eq_true_eq] at ha
    simp only [LockState.admits, Bool.and_eq_true, decide_eq_true_eq]
    exact ⟨ha.1, (Nat.mod_le _ _).trans_lt ha.2⟩
  · rename_i ha
    split
    · exact hquiet.congr rfl
    · refine queueExclusive_quiet hquiet hget ?_
      have hsize : asU32 entry.2.exclusiveHolders.size = entry.2.exclusiveHolders.size :=
        Nat.mod_eq_of_lt (hsound.size_le.trans_lt (BrokerConfig.cap_lt _))
      simp only [LockState.admits, hsize]
      exact Bool.eq_false_iff.2 ha

theorem handleRegisterRead_quiet (hs : b.Sane) (h : b.Quiet) :
    (b.handleRegisterRead env client uuid key overrides).Quiet := by
  have hdoes : b.Does env none (Action.Arrives client uuid overrides [key]) (b.lockOrDefault env key).1 :=
    lockOrDefault_does env b key fun _ => by simp [Action.Arrives]
  have hquiet := h.lockOrDefault env key
  have hget := lockOrDefault_get env b key
  unfold handleRegisterRead
  dsimp only
  split
  · rename_i ha
    simp only [Bool.and_eq_true] at ha
    exact hquiet.grantsNow (hs.does hdoes) (grantReadNow_run hget (by simpa [LockState.admits] using ha.1)
      (arrivalGrant_grantsNow rfl) fun _ => trivial)
  · rename_i ha
    refine Quiet.congr (queueRw_quiet hquiet hget fun he => ?_) rfl
    simpa [rwPending, PendingRequest.terms, LockState.admits, he] using ha

theorem handleRegisterWrite_quiet (hs : b.Sane) (h : b.Quiet) :
    (b.handleRegisterWrite env client uuid key overrides).Quiet := by
  have hdoes : b.Does env none (Action.Arrives client uuid overrides [key]) (b.lockOrDefault env key).1 :=
    lockOrDefault_does env b key fun _ => by simp [Action.Arrives]
  have hquiet := h.lockOrDefault env key
  have hget := lockOrDefault_get env b key
  unfold handleRegisterWrite
  dsimp only
  split
  · rename_i ha
    exact hquiet.grantsNow (hs.does hdoes) (grantWriteNow_run hget ha (arrivalGrant_grantsNow rfl) fun _ => trivial)
  · rename_i ha
    refine Quiet.congr (queueRw_quiet hquiet hget fun he => ?_) rfl
    simpa [rwPending, PendingRequest.terms, LockState.admits, LockState.vacant] using ha

theorem queueComposite_get_ne {keys : List String} {lockUuid k : String} (h : key ≠ k) :
    (b.queueComposite env client uuid key keys pid ttl lockUuid overrides).locks[k]? = b.locks[k]? := by
  unfold queueComposite
  simp only [trackPending, send_locks, modifyClient_locks]
  rw [maybeMarkIdle_get_ne env h, setLock_locks, OrdMap.get_insert_ne _ _ h, lockOrDefault_get_ne env h]

theorem handleCompositeLock_quiet (hs : b.Sane) (h : b.Quiet) (keys : List String) (wait : Bool) :
    (b.handleCompositeLock env client uuid keys pid ttl wait overrides).Quiet := by
  unfold handleCompositeLock
  split
  · exact h.congr rfl
  · rename_i hlen
    simp only [Bool.or_eq_true, decide_eq_true_eq, not_or, not_lt] at hlen
    have hsorted := Vec.pairwise_sortDedup keys
    have hlen' := (Vec.length_sortDedup_le keys).trans hlen.2
    split
    · exact h
    · rename_i head rest hkeys
      rw [hkeys] at hsorted hlen'
      dsimp only
      split
      · rename_i hfree
        exact h.grantsNow hs (grantCompositeNow_does (hsorted.imp ne_of_lt) hlen' (by simpa using hfree))
      · split
        · exact h.congr (by simp)
        · -- the first key is kicked; no other one changed
          have hs₁ : Sane ((b.unwrapOrNewV4 env overrides.lockUuid).1.queueComposite env client uuid head
              (head :: rest) pid ttl (b.unwrapOrNewV4 env overrides.lockUuid).2 overrides) :=
            hs.does (queueComposite_does hsorted hlen' rfl)
          obtain ⟨hhead, hother⟩ := tryGrantNext_settled env hs₁ head
          refine (hs₁.tryGrantNext env head).quiet_iff.2 fun k => ?_
          by_cases hk : k = head
          · exact hk ▸ hhead
          · refine hother k hk ((hs.quiet_iff.1 h k).congr ?_)
            rw [queueComposite_get_ne (Ne.symm hk), unwrapOrNewV4_locks]

end

/-! ## Releases -/

theorem handleUnlock_quiet (hs : b.Sane) (h : b.Quiet) (client : ClientId) (uuid : String) (keys : List String)
    (lockUuid : Option String) (force : Bool) : (b.handleUnlock env client uuid keys lockUuid force).Quiet := by
  unfold handleUnlock
  split
  · exact h.congr rfl
  · split
    · exact h.congr rfl
    · have hrel : b.Does env none (Action.Releases fun _ _ => False) (b.unlockRelease env client keys lockUuid force) :=
        unlockRelease_does client keys lockUuid force
      have hs₁ := hs.does hrel
      have hall : Broker.Does env none Action.Cascade (b.unlockRelease env client keys lockUuid force) _ :=
        tryGrantAll_does env _ keys
      refine Quiet.congr (b := (b.unlockRelease env client keys lockUuid force).tryGrantAll env keys) ?_ rfl
      refine (hs₁.does hall).quiet_iff.2 ((wakesUp_tryGrantNext env).foldl keys _ hs₁ fun k hk => ?_)
      refine (hs.quiet_iff.1 h k).congr ?_
      rw [unlockRelease_locks, unlockKeys_get client lockUuid force hk]

/-- A release on one key, then a wake-up of it. -/
theorem Quiet.wake (hs : b.Sane) (h : b.Quiet) {ok : Action → Prop} (hd : b.Does env given ok b')
    (hne : ∀ k, key ≠ k → b'.locks[k]? = b.locks[k]?) : (b'.tryGrantNext env key).Quiet := by
  have hs₁ := hs.does hd
  obtain ⟨hkey, hother⟩ := tryGrantNext_settled env hs₁ key
  refine (hs₁.tryGrantNext env key).quiet_iff.2 fun k => ?_
  by_cases hk : k = key
  · exact hk ▸ hkey
  · exact hother k hk ((hs.quiet_iff.1 h k).congr (hne k (Ne.symm hk)))

theorem handleEndRead_quiet (hs : b.Sane) (h : b.Quiet) (client : ClientId) (uuid key : String) :
    (b.handleEndRead env client uuid key).Quiet := by
  unfold handleEndRead
  split
  · exact h.congr rfl
  · rename_i l hl
    have hrel : b.Does env none (Action.Releases fun _ _ => False) (b.endReadRelease env client key l) :=
      endReadRelease_does client hl
    exact h.wake hs (hrel.after rfl rfl le_rfl rfl rfl) fun k hk => endReadRelease_get_ne client hk

theorem handleEndWrite_quiet (hs : b.Sane) (h : b.Quiet) (client : ClientId) (uuid key : String) :
    (b.handleEndWrite env client uuid key).Quiet := by
  unfold handleEndWrite
  split
  · have hrel : b.Does env none (Action.Releases fun _ _ => False) b := .refl
    exact h.wake hs hrel fun _ _ => rfl
  · rename_i l hl
    have hrel : b.Does env none (Action.Releases fun _ _ => False) (b.endWriteRelease client key l) :=
      endWriteRelease_does client hl
    exact h.wake hs (hrel.after rfl rfl le_rfl rfl rfl) fun k hk => endWriteRelease_get_ne client hk

/-- Waking the touched keys, when no other one changed. -/
theorem Quiet.wakeTouched (hs : b.Sane) (h : b.Quiet) {d : Dropping} {wake : Broker → String → Broker}
    (hw : WakesUp env wake) {ok : Action → Prop} (hd : b.Does env none ok d.broker) (hm : d.Marks b) :
    (wakeTouched env d wake).Quiet := by
  have hs₁ : d.broker.Sane := hs.does hd
  have hs₂ : Sane { d.broker with reads := d.broker.reads + 1 } := hs₁.congr rfl rfl
  refine (hs₁.does (wakeTouched_does d hw.does)).quiet_iff.2 (hw.foldl _ _ hs₂ fun k hk => ?_)
  exact (hs.quiet_iff.1 h k).congr (hm k fun hmem => hk ((env.order_perm _ _).mem_iff.2 hmem))

theorem dropClient_quiet (hs : b.Sane) (h : b.Quiet) (client : ClientId) : (b.dropClient env client).Quiet := by
  unfold dropClient
  split
  · rename_i hc
    exact h.wakeTouched hs (wakesUp_maybeMarkIdle env) (dropUnregistered_does hc) (.dropUnregistered client)
  · rename_i hc
    exact h.wakeTouched hs (wakesUp_tryGrantNext env) (dropRegistered_does hc) (.dropRegistered client _)

theorem tickTtl_quiet (hs : b.Sane) (h : b.Quiet) (now : Instant) : (b.tickTtl env now).1.Quiet := by
  have hdoes : b.Does env none (Action.Releases fun _ _ => False) (b.sweep now).broker := sweep_does now
  have hwake := h.wakeTouched hs (wakesUp_tryGrantNext env) hdoes (.sweep now)
  exact fun k l hl => hwake k l (get_of_prune hl)

/-! ## The other operations -/

end Broker

theorem LockState.Settled.detachOwner {key : String} {l : LockState} (h : l.Settled key) (u : String) :
    (l.detachOwner u).Settled key := by
  intro x p hq
  rw [← h x p hq]
  cases (p.terms key).mode <;>
    simp [LockState.admits, LockState.vacant, LockState.detachOwner, OrdMap.isEmpty_modify,
      Std.ExtTreeMap.size_modify]

namespace Broker

variable {env : Env} {b : Broker}

theorem Quiet.detachLockOwner (h : b.Quiet) (lockUuid : String) : (b.detachLockOwner lockUuid).Quiet := by
  unfold Broker.detachLockOwner
  refine List.foldlRecOn (motive := Quiet) _ _ (AllLocks.map h fun k l hl => hl.detachOwner lockUuid) ?_
  intro b hb client _
  rw [detachFrom_eq]
  exact hb

theorem handleRequest_quiet (hs : b.Sane) (h : b.Quiet) (client : ClientId) (r : Request)
    (overrides : GrantOverrides)
    (hmax : ∀ uuid key pid ttl m force retry keep wait l,
      r = .lock uuid (some key) none pid ttl (some m) force retry keep wait → b.locks[key]? = some l → m = l.max) :
    (b.handleRequest env client r overrides).Quiet := by
  cases r with
  | version uuid v => exact h.congr rfl
  | auth uuid t => exact h.congr rfl
  | lock uuid key keys pid ttl max force retry keep wait =>
    unfold handleRequest
    dsimp only
    split
    · cases keys <;> exact h.congr rfl
    · split
      · exact handleExclusiveLock_quiet hs h _ fun m l hm hl =>
          hmax _ _ _ _ m _ _ _ _ l (by rw [hm]) hl
      · exact handleCompositeLock_quiet hs h _ _
      · exact h.congr rfl
      · exact h.congr rfl
  | unlock uuid key keys lockUuid force =>
    unfold handleRequest
    dsimp only
    split
    · exact handleUnlock_quiet hs h client uuid _ lockUuid force
    · exact handleUnlock_quiet hs h client uuid _ lockUuid force
    · exact h.congr rfl
    · exact h.congr rfl
  | registerRead uuid key => exact handleRegisterRead_quiet hs h
  | registerWrite uuid key => exact handleRegisterWrite_quiet hs h
  | endRead uuid key => exact handleEndRead_quiet hs h client uuid key
  | endWrite uuid key => exact handleEndWrite_quiet hs h client uuid key
  | lockInfo uuid key =>
    unfold handleRequest
    dsimp only
    split <;> exact h.congr rfl
  | ls uuid => exact h.congr rfl
  | heartbeat uuid => exact h.congr rfl

end Broker

/-- A lock request of one key asks for no `max`, or for the one the key has. -/
def Op.LeavesMax (b : Broker) : Op → Prop
  | .request _ (.lock _ (some key) none _ _ (some max) ..) _ => ∀ l ∈ b.locks[key]?, max = l.max
  | _ => True

theorem Broker.Quiet.apply {env : Env} {b : Broker} (hs : b.Sane) (h : b.Quiet) {op : Op} (hop : op.LeavesMax b) :
    (b.apply env op).Quiet := by
  cases op with
  | registerClient => exact h.congr rfl
  | registerClientWithId id => exact h.congr rfl
  | request client r overrides =>
    refine handleRequest_quiet hs h client r overrides ?_
    rintro uuid key pid ttl m force retry keep wait l rfl hl
    exact hop l hl
  | dropClient client => exact dropClient_quiet hs h client
  | detachLockFromClient client u =>
    exact h.congr (by simp [Broker.apply, detachLockFromClient, untrackHolder])
  | detachLockOwner u => exact h.detachLockOwner u
  | tickTtl now => exact tickTtl_quiet hs h now

/-- The holders that keep a waiter of this kind waiting. -/
def LockState.Faces (l : LockState) : PendingKind → Prop
  | .exclusive => l.writer.isSome ∨ l.readers.isEmpty = false ∨ l.max ≤ l.exclusiveHolders.size
  | .reader => l.writer.isSome ∨ l.exclusiveHolders.isEmpty = false
  | .writer | .composite _ => l.writer.isSome ∨ l.readers.isEmpty = false ∨ l.exclusiveHolders.isEmpty = false

theorem LockState.Settled.faces {cfg : BrokerConfig} {key x : String} {l : LockState} {p : PendingRequest}
    (h : l.Settled key) (hs : l.Sound cfg) (hq : l.queue.front = some (x, p)) : l.Faces p.kind := by
  have ha := h x p hq
  have hsize : asU32 l.exclusiveHolders.size = l.exclusiveHolders.size :=
    Nat.mod_eq_of_lt (hs.size_le.trans_lt (BrokerConfig.cap_lt _))
  unfold PendingRequest.terms at ha
  cases hk : p.kind <;> rw [hk] at ha <;> simp only [admits, vacant, hsize] at ha <;>
    simp only [LockState.Faces] <;> cases hw : l.writer <;> simp_all
  all_goals cases hr : l.readers.isEmpty <;> simp_all

/-- **No missed wake-up.** In every run in which no lock request changes the
`max` of its key, after every operation `try_grant_once` grants nothing: the
head of every queue faces holders that keep it waiting. -/
theorem Broker.Runs.no_missed_wakeup {cfg : BrokerConfig} {b : Broker}
    (h : Runs cfg (fun _ b op => op.LeavesMax b) b) :
    (∀ env next key, (b.tryGrantOnce env next key).2 = false) ∧
    ∀ (key : String) (l : LockState) (x : String) (p : PendingRequest), b.locks[key]? = some l →
      l.queue.front = some (x, p) → l.Faces p.kind := by
  have hs : b.Sane := .reachable h.reachable
  have hq : b.Quiet := by
    induction h with
    | new => exact fun k l hl => by simp [Broker.new, BrokerState.new] at hl
    | apply env op hop hb ih => exact (ih (.reachable hb.reachable)).apply (.reachable hb.reachable) hop
  refine ⟨fun env next key => ?_, fun key l x p hl hx => (hq key l hl).faces (hs.sound key l hl) hx⟩
  rcases b.tryGrantOnce_cases env next key with ⟨he, _⟩ | ⟨l, p, hc, _⟩
  · rw [he]
  · exact absurd hc (hs.quiet_iff.1 hq key l p)

/-- Three clients want the same key; the first has given it back. -/
theorem Broker.Runs.no_missed_wakeup_handed_over :
    ∃ b l x p, Broker.Runs Sample.config (fun _ b op => op.LeavesMax b) b ∧
      b.locks["k"]? = some l ∧ l.queue.front = some (x, p) ∧ x = "t" ∧ l.Faces p.kind ∧
      ∀ env next key, (b.tryGrantOnce env next key).2 = false := by
  let ops := [Sample.ask 1 (Sample.lock "r" "k"), Sample.ask 2 (Sample.lock "s" "k"),
    Sample.ask 3 (Sample.lock "t" "k"), Sample.ask 1 (Sample.unlock "v" "k" "uu")]
  have hb : Broker.Runs Sample.config (fun _ b op => op.LeavesMax b) (Sample.after ops) :=
    Broker.Runs.applyAll Sample.env ops .new
      (by simp [Broker.Runs.Meets, ops, Op.LeavesMax, Sample.ask, Sample.lock, Sample.unlock])
  have hq : ((Sample.after ops).locks["k"]?.bind fun l => l.queue.front.map Prod.fst) = some "t" := by
    decide +kernel
  obtain ⟨l, hl, hfront⟩ := Option.bind_eq_some_iff.1 hq
  obtain ⟨⟨x, p⟩, hx, hxt⟩ := Option.map_eq_some_iff.1 hfront
  have hquiet := Broker.Runs.no_missed_wakeup hb
  exact ⟨_, l, x, p, hb, hl, hx, hxt, hquiet.2 "k" l x p hl hx, hquiet.1⟩

end LiveMutex
