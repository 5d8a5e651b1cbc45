/-
Queue scheduling as runs of the lock table machine: every arm of
`try_grant_once`, and by induction on the depth left the whole cascade of
`try_grant_next`.
-/
import LiveMutex.Refine

namespace LiveMutex

/-- The actions queue scheduling takes: it stamps entries, and grants to heads
of queues. -/
def Action.Cascade : Action → Prop
  | .stamp .. | .grantHead .. | .finish .. | .advance .. => True
  | _ => False

theorem LockState.pop_nextOrForcedFencingToken (l : LockState) (forced : Option Nat) :
    (l.pop.nextOrForcedFencingToken forced).2 = (l.nextOrForcedFencingToken forced).2 := by
  cases forced <;> rfl

/-- The token and uuid the head `p` of the queue of `key` is granted with. -/
def Broker.headGrant (env : Env) (b : Broker) (key : String) (l : LockState) (p : PendingRequest) : Grant where
  key := key
  client := p.client
  requestUuid := p.requestUuid
  lockUuid :=
    match p.kind with
    | .composite c => c.compositeLockUuid
    | _ => (b.unwrapOrNewV4 env p.grantLockUuid).2
  counter := l.fencingCounter
  token := (l.nextOrForcedFencingToken (p.terms key).forced).2

namespace Broker

variable {env : Env} {given : Option String} {b b' : Broker} {key : String} {l : LockState}
  {p : PendingRequest}

theorem headGrant_for (hq : ∃ x, l.queue.front = some (x, p)) (ha : l.admits (p.terms key).mode = true) :
    (b.headGrant env key l p).For p l where
  client := rfl
  requestUuid := rfl
  front := hq
  admits := ha
  mints := ⟨rfl, rfl⟩

/-- A grant to the head of a queue that is not a composite. -/
theorem Does.head (h : b.locks[key]? = some l) (hq : ∃ x, l.queue.front = some (x, p))
    (hp : p.isComposite = false) (ha : l.admits (p.terms key).mode = true)
    (hl : b'.locks = b.locks.insert key (l.pop.take (p.terms key) (b.headGrant env key l p)))
    (hc : b'.config = b.config) (hr : (b.unwrapOrNewV4 env p.grantLockUuid).1.reads ≤ b'.reads)
    (hg : b'.grants = b.headGrant env key l p :: b.grants)
    (hw : b'.fencingWatermark = Nat.max b.fencingWatermark (b.headGrant env key l p).token) :
    b.Does env given Action.Cascade b' := by
  have hu : (b.headGrant env key l p).lockUuid = (b.unwrapOrNewV4 env p.grantLockUuid).2 := by
    cases hk : p.kind with
    | composite c => simp [PendingRequest.isComposite, hk] at hp
    | _ => simp [headGrant, hk]
  have hdrew := b.unwrapOrNewV4_snd env p.grantLockUuid
  rw [← hu] at hdrew
  refine .single (a := .grantHead (b.headGrant env key l p) p) ?_ trivial ?_ hc
    ((b.unwrapOrNewV4_reads env _).trans hr) hg hw
  · rw [hl]
    refine .grantHead h hp (headGrant_for hq ha) fun u h => ?_
    rcases hdrew with hd | ⟨hn, _⟩
    · rw [hd] at h; exact Option.some.inj h
    · rw [hn] at h; cases h
  · intro hn
    rcases hdrew with hd | ⟨_, hd⟩
    · rw [hn] at hd; cases hd
    · exact hd.mono le_rfl hr

attribute [local simp] grantExclusiveHead grantReaderHead grantWriterHead takeMember untrackPending
  trackHolder trackPending LockState.pop_nextOrForcedFencingToken headGrant PendingRequest.terms
  LockState.take

theorem grantExclusiveHead_locks (hk : p.kind = .exclusive) :
    (b.grantExclusiveHead env key l p).locks =
      b.locks.insert key (l.pop.take (p.terms key) (b.headGrant env key l p)) := by
  simp [hk]

theorem grantExclusiveHead_grants (hk : p.kind = .exclusive) :
    (b.grantExclusiveHead env key l p).grants = b.headGrant env key l p :: b.grants := by
  simp [hk]

theorem grantExclusiveHead_does (h : b.locks[key]? = some l) (hq : ∃ x, l.queue.front = some (x, p))
    (hk : p.kind = .exclusive) (ha : l.admits .exclusive = true) :
    b.Does env given Action.Cascade (b.grantExclusiveHead env key l p) := by
  refine .head h hq (by simp [PendingRequest.isComposite, hk]) (by simpa [hk] using ha)
    (grantExclusiveHead_locks hk) ?_ ?_ (grantExclusiveHead_grants hk) ?_
  · simp
  · exact le_trans (by simp) (scheduleDeadline_reads env _ _ _ _ _ _)
  · simp [hk]

theorem grantReaderHead_locks (hk : p.kind = .reader) :
    (b.grantReaderHead env key l p).locks =
      b.locks.insert key (l.pop.take (p.terms key) (b.headGrant env key l p)) := by
  simp [hk]

theorem grantReaderHead_grants (hk : p.kind = .reader) :
    (b.grantReaderHead env key l p).grants = b.headGrant env key l p :: b.grants := by
  simp [hk]

theorem grantReaderHead_does (h : b.locks[key]? = some l) (hq : ∃ x, l.queue.front = some (x, p))
    (hk : p.kind = .reader) (ha : l.admits .reader = true) :
    b.Does env given Action.Cascade (b.grantReaderHead env key l p) := by
  refine .head h hq (by simp [PendingRequest.isComposite, hk]) (by simpa [hk] using ha)
    (grantReaderHead_locks hk) ?_ ?_ (grantReaderHead_grants hk) ?_
  · simp
  · simp
  · simp [hk]

theorem grantWriterHead_locks (hk : p.kind = .writer) :
    (b.grantWriterHead env key l p).locks =
      b.locks.insert key (l.pop.take (p.terms key) (b.headGrant env key l p)) := by
  simp [hk]

theorem grantWriterHead_grants (hk : p.kind = .writer) :
    (b.grantWriterHead env key l p).grants = b.headGrant env key l p :: b.grants := by
  simp [hk]

theorem grantWriterHead_does (h : b.locks[key]? = some l) (hq : ∃ x, l.queue.front = some (x, p))
    (hk : p.kind = .writer) (ha : l.admits .writer = true) :
    b.Does env given Action.Cascade (b.grantWriterHead env key l p) := by
  refine .head h hq (by simp [PendingRequest.isComposite, hk]) (by simpa [hk] using ha)
    (grantWriterHead_locks hk) ?_ ?_ (grantWriterHead_grants hk) ?_
  · simp
  · simp
  · simp [hk]

/-! ### The composite arm -/

section

variable {c : Composite} (env) (hk : p.kind = .composite c)

include hk

theorem takeMember_locks :
    (b.takeMember key l p c).1.locks =
      b.locks.insert key (l.pop.take (p.terms key) (b.headGrant env key l p)) := by
  simp [hk]

theorem takeMember_snd : (b.takeMember key l p c).2 = (b.headGrant env key l p).token := by
  simp [hk]

theorem takeMember_grants :
    (b.takeMember key l p c).1.grants = b.headGrant env key l p :: b.grants := by
  simp [hk]

theorem takeMember_fencingWatermark :
    (b.takeMember key l p c).1.fencingWatermark =
      Nat.max b.fencingWatermark (b.headGrant env key l p).token := by
  simp [hk]

omit hk in
@[simp] theorem takeMember_config : (b.takeMember key l p c).1.config = b.config := by simp

omit hk in
@[simp] theorem takeMember_reads : (b.takeMember key l p c).1.reads = b.reads := by simp

omit hk in
@[simp] theorem takeMember_sent : (b.takeMember key l p c).1.sent = b.sent := by
  simp only [takeMember, trackHolder, untrackPending, modifyClient_sent, putGrant_sent]

omit hk in
theorem grantMemberHead_last (hr : c.remainingKeys = [key]) :
    b.grantMemberHead env key l p c =
      (((b.takeMember key l p c).1.scheduleDeadline env p.ttl c.compositeLockUuid c.allKeys .exclusive
        p.client).send p.client
        (.compositeLock p.requestUuid c.allKeys true (some c.compositeLockUuid)
          (some (c.grantedTokens.insert key (b.takeMember key l p c).2)) none), none) := by
  unfold grantMemberHead
  simp only [Composite.advance, hr, List.tail_cons]

omit hk in
theorem grantMemberHead_next {next : String} {rest : List String}
    (hr : c.remainingKeys = key :: next :: rest) :
    b.grantMemberHead env key l p c =
      ((((b.takeMember key l p c).1.lockOrDefault env next).1.setLock next
        (((b.takeMember key l p c).1.lockOrDefault env next).2.push
          (p.moved (c.advance key (b.takeMember key l p c).2)))).trackPending
        p.client next p.requestUuid, some next) := by
  unfold grantMemberHead
  simp only [Composite.advance, hr, List.tail_cons]

/-- A composite gets its last key. -/
theorem grantMemberHead_last_does (h : b.locks[key]? = some l) (hq : ∃ x, l.queue.front = some (x, p))
    (hr : c.remainingKeys = [key]) (ha : l.vacant = true) :
    b.Does env given Action.Cascade (b.grantMemberHead env key l p c).1 := by
  rw [grantMemberHead_last env hr]
  refine .single (a := .finish (b.headGrant env key l p) p c) ?_ trivial trivial ?_ ?_ ?_ ?_
  · rw [send_locks, scheduleDeadline_locks, takeMember_locks env hk]
    exact .finish h hk hr (headGrant_for hq (by simpa [hk, LockState.admits] using ha)) (by simp [hk])
  · simp only [send_config, scheduleDeadline_config, takeMember_config]
  · refine le_trans ?_ (scheduleDeadline_reads env _ _ _ _ _ _)
    simp only [takeMember_reads, le_refl]
  · rw [send_grants, scheduleDeadline_grants, takeMember_grants env hk]; rfl
  · rw [send_fencingWatermark, scheduleDeadline_fencingWatermark, takeMember_fencingWatermark env hk]; rfl

/-- A composite gets a key and goes to the next. -/
theorem grantMemberHead_next_does {next : String} {rest : List String} (h : b.locks[key]? = some l)
    (hq : ∃ x, l.queue.front = some (x, p)) (hr : c.remainingKeys = key :: next :: rest)
    (ha : l.vacant = true) : b.Does env given Action.Cascade (b.grantMemberHead env key l p c).1 := by
  have hu : (b.headGrant env key l p).lockUuid = c.compositeLockUuid := by simp [hk]
  have hfor : (b.headGrant env key l p).For p l :=
    headGrant_for hq (by simpa [hk, LockState.admits] using ha)
  have hlocks : (b.takeMember key l p c).1.locks =
      b.locks.insert key (l.pop.take (p.terms key) (b.headGrant env key l p)) := takeMember_locks env hk
  have hentry : LockTable.Entry b.config b.fencingWatermark (b.takeMember key l p c).1.locks next
      ((b.takeMember key l p c).1.lockOrDefault env next).2 := by
    cases hn : (b.takeMember key l p c).1.locks[next]? with
    | some l' => rw [lockOrDefault_of_some env _ next hn]; exact .inl hn
    | none =>
      obtain ⟨hf, _⟩ := lockOrDefault_of_none env _ next hn
      refine .inr ⟨hn, { hf with max_le := ?_, max_eq := ?_, floor_le := ?_ }⟩
      · simpa only [takeMember_config] using hf.max_le
      · simpa only [takeMember_config] using hf.max_eq
      · refine le_trans ?_ hf.floor_le
        rw [takeMember_fencingWatermark env hk]; exact Nat.le_max_left _ _
  rw [grantMemberHead_next env hr, takeMember_snd env hk]
  refine .single (a := .advance (b.headGrant env key l p) p c next) ?_ trivial trivial ?_ ?_ ?_ ?_
  · simp only [trackPending, modifyClient_locks, setLock_lockOrDefault, hlocks]
    rw [hlocks] at hentry
    exact .advance h hk hr hfor hu hentry
  · simp only [trackPending, modifyClient_config, setLock_config, lockOrDefault_config, takeMember_config]
  · simp only [trackPending, modifyClient_reads, setLock_reads]
    exact le_trans (by rw [takeMember_reads]) (lockOrDefault_reads env _ next)
  · simp only [trackPending, modifyClient_grants, setLock_grants]
    rw [lockOrDefault_eq, takeMember_grants env hk]; rfl
  · simp only [trackPending, modifyClient_fencingWatermark, setLock_fencingWatermark]
    rw [lockOrDefault_eq, takeMember_fencingWatermark env hk]; rfl

end

/-! ## The head of a queue -/

end Broker

/-- A grant to the head `p` of the queue of `key`, whichever its kind; the key
a composite goes on to comes along. -/
def Broker.grantHead (env : Env) (b : Broker) (key : String) (l : LockState) (p : PendingRequest) :
    Broker × Option String :=
  match p.kind with
  | .exclusive => (b.grantExclusiveHead env key l p, none)
  | .reader => (b.grantReaderHead env key l p, none)
  | .writer => (b.grantWriterHead env key l p, none)
  | .composite c => b.grantMemberHead env key l p c

/-- The head of the queue of `key` can be granted. -/
structure Broker.CanGrant (b : Broker) (key : String) (l : LockState) (p : PendingRequest) : Prop where
  get : b.locks[key]? = some l
  front : ∃ x, l.queue.front = some (x, p)
  admits : l.admits (p.terms key).mode = true
  stands : ∀ c, p.kind = .composite c → c.remainingKeys.head? = some key

namespace Broker

variable {env : Env} {given : Option String} {b : Broker} {key : String} {l : LockState} {p : PendingRequest}

/-- A grant to a waiter that is not a composite changes its key only. -/
theorem grantHead_locks (hp : p.isComposite = false) :
    (b.grantHead env key l p).1.locks =
      b.locks.insert key (l.pop.take (p.terms key) (b.headGrant env key l p)) ∧
    (b.grantHead env key l p).2 = none := by
  unfold grantHead
  cases hk : p.kind with
  | composite c => simp [PendingRequest.isComposite, hk] at hp
  | exclusive => exact ⟨grantExclusiveHead_locks hk, rfl⟩
  | reader => exact ⟨grantReaderHead_locks hk, rfl⟩
  | writer => exact ⟨grantWriterHead_locks hk, rfl⟩

/-- The head is no composite, or a composite on its last key, or one with keys to come. -/
theorem CanGrant.cases (h : b.CanGrant key l p) :
    p.isComposite = false ∨ (∃ c, p.kind = .composite c ∧ c.remainingKeys = [key]) ∨
    ∃ c next rest, p.kind = .composite c ∧ c.remainingKeys = key :: next :: rest := by
  cases hk : p.kind with
  | composite c =>
    have hstands := h.stands c hk
    match hr : c.remainingKeys with
    | [] => simp [hr] at hstands
    | [k] =>
      obtain rfl : k = key := by simpa [hr] using hstands
      exact .inr (.inl ⟨c, rfl, hr⟩)
    | k :: next :: rest =>
      obtain rfl : k = key := by simpa [hr] using hstands
      exact .inr (.inr ⟨c, next, rest, rfl, hr⟩)
  | _ => exact .inl (by simp [PendingRequest.isComposite, hk])

theorem grantHead_composite {c : Composite} (hk : p.kind = .composite c) :
    b.grantHead env key l p = b.grantMemberHead env key l p c := by
  simp [grantHead, hk]

/-- The key a composite goes on to is the one after `key`. -/
theorem grantHead_next (h : b.CanGrant key l p) {next : String} (hn : (b.grantHead env key l p).2 = some next) :
    ∃ c rest, p.kind = .composite c ∧ c.remainingKeys = key :: next :: rest := by
  rcases h.cases with hp | ⟨c, hk, hr⟩ | ⟨c, k, rest, hk, hr⟩
  · rw [(grantHead_locks hp).2] at hn; cases hn
  · rw [grantHead_composite hk, grantMemberHead_last env hr] at hn; cases hn
  · rw [grantHead_composite hk, grantMemberHead_next env hr] at hn
    obtain rfl := Option.some.inj hn
    exact ⟨c, rest, hk, hr⟩

/-- Keys other than the granted one and the one a composite goes on to. -/
theorem grantHead_get_ne (h : b.CanGrant key l p) {k : String} (hk : k ≠ key)
    (hn : (b.grantHead env key l p).2 ≠ some k) : (b.grantHead env key l p).1.locks[k]? = b.locks[k]? := by
  rcases h.cases with hp | ⟨c, hc, hr⟩ | ⟨c, next, rest, hc, hr⟩
  · rw [(grantHead_locks hp).1, OrdMap.get_insert_ne _ _ (Ne.symm hk)]
  · rw [grantHead_composite hc, grantMemberHead_last env hr, send_locks, scheduleDeadline_locks,
      takeMember_locks env hc, OrdMap.get_insert_ne _ _ (Ne.symm hk)]
  · rw [grantHead_composite hc, grantMemberHead_next env hr] at hn ⊢
    have hnext : next ≠ k := fun he => hn (by rw [he])
    simp only [trackPending, modifyClient_locks, setLock_locks]
    rw [OrdMap.get_insert_ne _ _ hnext, lockOrDefault_get_ne env hnext, takeMember_locks env hc,
      OrdMap.get_insert_ne _ _ (Ne.symm hk)]

theorem grantHead_grants (h : b.CanGrant key l p) :
    (b.grantHead env key l p).1.grants = b.headGrant env key l p :: b.grants := by
  rcases h.cases with hp | ⟨c, hc, hr⟩ | ⟨c, next, rest, hc, hr⟩
  · unfold grantHead
    cases hk : p.kind with
    | exclusive => exact grantExclusiveHead_grants hk
    | reader => exact grantReaderHead_grants hk
    | writer => exact grantWriterHead_grants hk
    | composite c => simp [PendingRequest.isComposite, hk] at hp
  · rw [grantHead_composite hc, grantMemberHead_last env hr, send_grants, scheduleDeadline_grants,
      takeMember_grants env hc]
  · rw [grantHead_composite hc, grantMemberHead_next env hr]
    simp only [trackPending, modifyClient_grants, setLock_grants]
    rw [lockOrDefault_eq, takeMember_grants env hc]

theorem grantHead_does (h : b.CanGrant key l p) :
    b.Does env given Action.Cascade (b.grantHead env key l p).1 := by
  have ha := h.admits
  rcases h.cases with hp | ⟨c, hc, hr⟩ | ⟨c, next, rest, hc, hr⟩
  · unfold grantHead
    cases hk : p.kind with
    | exclusive => exact grantExclusiveHead_does h.get h.front hk (by simpa [PendingRequest.terms, hk] using ha)
    | reader => exact grantReaderHead_does h.get h.front hk (by simpa [PendingRequest.terms, hk] using ha)
    | writer => exact grantWriterHead_does h.get h.front hk (by simpa [PendingRequest.terms, hk] using ha)
    | composite c => simp [PendingRequest.isComposite, hk] at hp
  · rw [grantHead_composite hc]
    exact grantMemberHead_last_does env hc h.get h.front hr
      (by simpa [PendingRequest.terms, hc, LockState.admits] using ha)
  · rw [grantHead_composite hc]
    exact grantMemberHead_next_does env hc h.get h.front hr
      (by simpa [PendingRequest.terms, hc, LockState.admits] using ha)

/-- What `try_grant_once` does: nothing, when the head of the queue cannot be
granted; else the grant, followed by the same on the next key of a composite. -/
theorem tryGrantOnce_cases (env : Env) (b : Broker) (next : Broker → String → Broker) (key : String) :
    (b.tryGrantOnce env next key = (b, false) ∧ ∀ l p, ¬b.CanGrant key l p) ∨
    ∃ l p, b.CanGrant key l p ∧
      b.tryGrantOnce env next key =
        ((b.grantHead env key l p).2.elim (b.grantHead env key l p).1 (next (b.grantHead env key l p).1), true) := by
  unfold tryGrantOnce
  cases hl : b.locks[key]? with
  | none =>
    refine .inl ⟨rfl, fun l p h => ?_⟩
    have := h.get
    rw [hl] at this; cases this
  | some l =>
    -- a grant needs this entry and the head of its queue
    have only : ∀ {l' p'}, b.CanGrant key l' p' → l' = l ∧ ∃ x, l.queue.front = some (x, p') := by
      intro l' p' h
      have := h.get
      rw [hl] at this
      obtain rfl := Option.some.inj this
      exact ⟨rfl, h.front⟩
    cases hq : l.queue.front with
    | none =>
      refine .inl ⟨by simp [hq], fun l' p' h => ?_⟩
      obtain ⟨_, x, hx⟩ := only h
      rw [hq] at hx; cases hx
    | some e =>
      obtain ⟨x, p⟩ := e
      have stuck : ¬b.CanGrant key l p → ∀ l' p', ¬b.CanGrant key l' p' := by
        intro hn l' p' h
        obtain ⟨rfl, y, hy⟩ := only h
        rw [hq] at hy
        cases hy
        exact hn h
      simp only [hq]
      cases hk : p.kind with
      | exclusive =>
        simp only
        split
        · rename_i ha
          refine .inl ⟨rfl, stuck fun h => ?_⟩
          have := h.admits
          simp only [PendingRequest.terms, hk, LockState.admits] at this
          rw [this] at ha; cases ha
        · rename_i ha
          refine .inr ⟨l, p, ⟨hl, ⟨x, hq⟩, ?_, by simp [hk]⟩, by simp [grantHead, hk]⟩
          simpa [PendingRequest.terms, hk, LockState.admits] using ha
      | reader =>
        simp only
        split
        · rename_i ha
          refine .inl ⟨rfl, stuck fun h => ?_⟩
          have := h.admits
          simp only [PendingRequest.terms, hk, LockState.admits] at this
          simp_all
        · rename_i ha
          refine .inr ⟨l, p, ⟨hl, ⟨x, hq⟩, ?_, by simp [hk]⟩, by simp [grantHead, hk]⟩
          simpa [PendingRequest.terms, hk, LockState.admits] using ha
      | writer =>
        simp only
        split
        · rename_i ha
          refine .inl ⟨rfl, stuck fun h => ?_⟩
          have := h.admits
          simp only [PendingRequest.terms, hk, LockState.admits, LockState.vacant] at this
          simp_all
        · rename_i ha
          refine .inr ⟨l, p, ⟨hl, ⟨x, hq⟩, ?_, by simp [hk]⟩, by simp [grantHead, hk]⟩
          simpa [PendingRequest.terms, hk, LockState.admits, LockState.vacant] using ha
      | composite c =>
        simp only [tryGrantComposite, hl, hq, hk]
        cases hr : c.remainingKeys.head? with
        | none =>
          refine .inl ⟨rfl, stuck fun h => ?_⟩
          have := h.stands c hk
          rw [hr] at this; cases this
        | some target =>
          simp only
          split
          · rename_i ht
            refine .inl ⟨rfl, stuck fun h => ht ?_⟩
            have := h.stands c hk
            rw [hr] at this
            exact Option.some.inj this
          · rename_i ht
            obtain rfl : target = key := not_not.1 ht
            split
            · rename_i ha
              refine .inl ⟨rfl, stuck fun h => ?_⟩
              have := h.admits
              simp only [PendingRequest.terms, hk, LockState.admits, LockState.vacant] at this
              rw [this] at ha; cases ha
            · rename_i ha
              refine .inr ⟨l, p, ⟨hl, ⟨x, hq⟩, ?_, ?_⟩, ?_⟩
              · simpa [PendingRequest.terms, hk, LockState.admits, LockState.vacant] using ha
              · intro c' hc'
                rw [hk] at hc'
                obtain rfl := PendingKind.composite.inj hc'
                exact hr
              · simp only [grantHead, hk]
                cases (b.grantMemberHead env target l p c).2 <;> rfl

/-! ## The cascade -/

/-- What every grant to a head and every idle stamp keeps, the cascade of
`try_grant_next` keeps. -/
theorem tryGrantLoop_inv {I : Broker → Prop} (hmark : ∀ b key, I b → I (b.maybeMarkIdle env key))
    (hgrant : ∀ b key l p, I b → b.CanGrant key l p → I (b.grantHead env key l p).1) :
    ∀ (fuel : Nat) (b : Broker) (key : String), I b → I (b.tryGrantLoop env fuel key)
  | 0, _, _, h => h
  | fuel + 1, b, key, h => by
    have ih := tryGrantLoop_inv hmark hgrant fuel
    unfold tryGrantLoop
    dsimp only
    rcases b.tryGrantOnce_cases env (tryGrantLoop env fuel) key with ⟨he, _⟩ | ⟨l, p, hc, he⟩
    · rw [he]
      exact hmark _ _ h
    · rw [he]
      refine ih _ key ?_
      cases (b.grantHead env key l p).2 with
      | none => exact hgrant b key l p h hc
      | some k => exact ih _ k (hgrant b key l p h hc)

/-- The cascade of `try_grant_next` is a run of the machine. -/
theorem tryGrantLoop_does (env : Env) (given : Option String) (fuel : Nat) (b : Broker) (key : String) :
    b.Does env given Action.Cascade (b.tryGrantLoop env fuel key) :=
  tryGrantLoop_inv (fun _ _ h => h.trans (maybeMarkIdle_does env _ _ fun _ => trivial))
    (fun _ _ _ _ h hc => h.trans (grantHead_does hc)) fuel b key .refl

theorem tryGrantNext_does (env : Env) (b : Broker) (key : String) :
    b.Does env given Action.Cascade (b.tryGrantNext env key) :=
  tryGrantLoop_does env given _ b key

theorem tryGrantAll_does (env : Env) (b : Broker) (keys : List String) :
    b.Does env given Action.Cascade (b.tryGrantAll env keys) :=
  .foldl (fun b key => b.tryGrantNext_does env key) keys b

end Broker

end LiveMutex
