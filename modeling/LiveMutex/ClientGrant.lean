/-
Every grant reaches the application: an acquire call returns the guard of the
first answer `acquired: true` the broker delivers to it.

What the broker may say under the uuid of a call is followed from the request
to the grant: a waiter of the request keeps the form it was queued in
(`Want.Waits`), and every response sent under the uuid is one the client can
read, whole when it grants (`Want.Answers`). `Broker.Tracks` holds at each
point of each operation, and the run of a broker is an induction over it.
-/
import LiveMutex.Client
import LiveMutex.Sane
import LiveMutex.Sends

namespace LiveMutex

/-- What is still to come for an acquire call. -/
inductive Want where
  | nothing
  | single
  | composite (keys : List String)

namespace Want

/-- A response the call has a use for; one that grants has its lock uuid and
its tokens. -/
def Answers : Want → Response → Prop
  | .single, .lock _ _ acquired _ lockUuid fencingToken _ _ =>
    acquired = true → (∃ u, lockUuid = some u ∧ u ≠ "") ∧ ∃ t, fencingToken = some t
  | .composite ks, .compositeLock _ keys acquired lockUuid fencingTokens _ =>
    acquired = true → keys = Vec.sortDedup ks ∧ (∃ u, lockUuid = some u ∧ u ≠ "") ∧
      ∃ tokens, fencingTokens = some tokens ∧ ∀ k, k ∈ tokens ↔ k ∈ keys
  | _, _ => False

/-- A waiter of the call, in the queue of `key`. -/
def Waits : Want → String → PendingRequest → Prop
  | .nothing, _, _ => False
  | .single, _, p => p.kind = .exclusive ∧ p.grantLockUuid ≠ some ""
  | .composite ks, key, p =>
    ∃ c, p.kind = .composite c ∧ c.allKeys = Vec.sortDedup ks ∧ c.compositeLockUuid ≠ "" ∧ c.Wf key

/-- The call is never a reader or a writer. -/
theorem Waits.kind {want : Want} {key : String} {p : PendingRequest} (h : want.Waits key p) :
    p.kind ≠ .reader ∧ p.kind ≠ .writer := by
  cases want with
  | nothing => exact False.elim h
  | single => simp [h.1]
  | composite ks =>
    obtain ⟨c, hc, _⟩ := h
    simp [hc]

end Want

/-! ## The waiters of a call -/

/-- The waiters under `uuid` are as the call needs them. -/
def LockState.Expects (uuid : String) (want : Want) (key : String) (l : LockState) : Prop :=
  ∀ e ∈ l.queue.entries, e.2.requestUuid = uuid → want.Waits key e.2

/-- A new waiter that is one of the call, if it has its uuid. -/
def PendingRequest.Expected (uuid : String) (want : Want) (p : PendingRequest) : Prop :=
  p.requestUuid = uuid → ∀ key, p.Starts key → want.Waits key p

namespace LockState.Expects

variable {uuid : String} {want : Want} {key : String} {l l' : LockState}

/-- No waiter that was not there before. -/
theorem shrink (h : l.Expects uuid want key) (hq : ∀ e ∈ l'.queue.entries, e ∈ l.queue.entries) :
    l'.Expects uuid want key := fun e he => h e (hq e he)

theorem kept (cfg : BrokerConfig) :
    Kept cfg (PendingRequest.Expected uuid want) (LockState.Expects uuid want) where
  fresh hf := by
    intro e he
    simp [hf.queue] at he
  setMax h _ _ := h
  stamp h _ := h
  take h _ _ := h.shrink fun e he => by simpa using he
  pop h := h.shrink fun e he => List.mem_of_mem_tail he
  push h hp hnew e he hu := by
    rcases LinkedQueue.mem_pushBack he with he | rfl
    · exact h e he hu
    · exact hnew hu _ hp
  pushFirst h hp hnew e he hu := by
    rcases LinkedQueue.mem_pushFront he with he | rfl
    · exact h e he hu
    · exact hnew hu _ hp
  moved h hq hp hr h' e he hu := by
    rcases LinkedQueue.mem_pushBack he with he | rfl
    · exact h' e he hu
    · -- only a composite waiter moves, and it takes its keys and its lock uuid along
      have hw := h _ (List.mem_of_mem_head? hq) hu
      cases want with
      | nothing => exact hw
      | single => simp [Want.Waits, hp] at hw
      | composite ks =>
        obtain ⟨c', hc', hall, huuid, hwf⟩ := hw
        obtain rfl := PendingKind.composite.inj (hp.symm.trans hc')
        exact ⟨_, rfl, hall, huuid, hwf.advance hr _⟩
  removeWaiter h := h.shrink fun e he => List.mem_of_mem_filter he
  removeForKind h := h.shrink fun e he => by simpa using he
  wipe h := h
  detachOwner h := h

end LockState.Expects

namespace Action

theorem Cascade.queues {New : PendingRequest → Prop} {a : Action} (h : a.Cascade) : a.Queues New := by
  cases a <;> first | exact trivial | exact False.elim h

theorem Releases.queues {taken : String → String → Prop} {New : PendingRequest → Prop} {a : Action}
    (h : a.Releases taken) : a.Queues New := by
  cases a <;> first | exact trivial | exact False.elim h

theorem Prunes.queues {New : PendingRequest → Prop} {a : Action} (h : a.Prunes) : a.Queues New := by
  cases a <;> first | exact trivial | exact False.elim h

theorem Detaches.queues {New : PendingRequest → Prop} {a : Action} (h : a.Detaches) : a.Queues New := by
  cases a <;> first | exact trivial | exact False.elim h

theorem GrantsNow.queues {New : PendingRequest → Prop} {client : ClientId} {uuid : String}
    {overrides : GrantOverrides} {keys : List String} {a : Action} (h : a.GrantsNow client uuid overrides keys) :
    a.Queues New := by
  cases a <;> first | exact trivial | exact False.elim h

/-- A request under another uuid queues no waiter of the call. -/
theorem Arrives.queues {uuid uuid' : String} {want : Want} (hne : uuid' ≠ uuid) {client : ClientId}
    {overrides : GrantOverrides} {keys : List String} {a : Action} (h : a.Arrives client uuid' overrides keys) :
    a.Queues (PendingRequest.Expected uuid want) := by
  cases a with
  | enqueue k p first => exact fun hu => absurd (h.2.1.symm.trans hu) hne
  | _ => trivial

end Action

/-! ## What is said under the uuid of a call -/

namespace Broker

/-- From `b₀` to `b`: the waiters under `uuid` are those of the call, and what
was sent under it since `b₀` answers the call. -/
structure Tracks (uuid : String) (want : Want) (b₀ b : Broker) : Prop where
  waits : AllLocks (LockState.Expects uuid want) b.locks
  told : ∃ new, b.sent = new ++ b₀.sent ∧
    ∀ s ∈ new, s.response.correlationUuid = uuid → want.Answers s.response

namespace Tracks

variable {env : Env} {given : Option String} {ok : Action → Prop} {uuid : String} {want : Want} {b₀ b b' : Broker}

theorem refl (h : AllLocks (LockState.Expects uuid want) b.locks) : Tracks uuid want b b :=
  ⟨h, [], rfl, by simp⟩

/-- A stretch that sends nothing. -/
theorem silent (h : Tracks uuid want b₀ b) (hd : b.Does env given ok b')
    (hok : ∀ a, ok a → a.Queues (PendingRequest.Expected uuid want)) (hs : b'.sent = b.sent) :
    Tracks uuid want b₀ b' :=
  ⟨(LockState.Expects.kept b.config).does hd hok h.waits, hs ▸ h.told⟩

/-- A stretch that sends one response. -/
theorem speaks (h : Tracks uuid want b₀ b) (hd : b.Does env given ok b')
    (hok : ∀ a, ok a → a.Queues (PendingRequest.Expected uuid want)) {Q : Response → Prop} (hs : b.Speaks Q b')
    (hr : ∀ r, Q r → r.correlationUuid = uuid → want.Answers r) : Tracks uuid want b₀ b' := by
  refine ⟨(LockState.Expects.kept b.config).does hd hok h.waits, ?_⟩
  obtain ⟨new, hnew, htold⟩ := h.told
  obtain ⟨s, hs, hq⟩ := hs
  refine ⟨s :: new, by rw [hs, hnew, List.cons_append], fun s' hs' hu => ?_⟩
  rcases List.mem_cons.1 hs' with rfl | hs'
  · exact hr _ hq hu
  · exact htold s' hs' hu

/-- A response under another uuid. -/
theorem send (h : Tracks uuid want b₀ b) (env : Env) (client : ClientId) {r : Response}
    (hne : r.correlationUuid ≠ uuid) : Tracks uuid want b₀ (b.send client r) := by
  have hd : b.Does env none (fun _ => False) (b.send client r) := .same rfl rfl le_rfl rfl rfl
  have hs : b.Speaks (fun r => r.correlationUuid ≠ uuid) (b.send client r) := speaks_send rfl hne
  exact h.speaks hd (fun _ h => h.elim) hs fun _ hr hu => absurd hu hr

end Tracks

/-! ## The cascade -/

section

variable {b : Broker} {key : String} {l : LockState} {p : PendingRequest}

theorem drawn_ne {given : Option String} (h : given ≠ some "") (env : Env) (b : Broker) :
    (b.unwrapOrNewV4 env given).2 ≠ "" := by
  cases given with
  | none => exact env.newV4_ne b.reads
  | some u => exact fun hu => h (congrArg some hu)

/-- The grant to the head of a queue is one response under the head's uuid, or
none when a composite goes on to its next key; the head gets what it waits for. -/
theorem grantHead_sent (env : Env) (want : Want) (h : b.CanGrant key l p) :
    (b.grantHead env key l p).1.sent = b.sent ∨
    b.Speaks (fun r => r.correlationUuid = p.requestUuid ∧ (want.Waits key p → want.Answers r))
      (b.grantHead env key l p).1 := by
  rcases h.cases with hp | ⟨c, hc, hr⟩ | ⟨c, next, rest, hc, hr⟩
  · refine .inr ?_
    unfold grantHead
    cases hk : p.kind with
    | exclusive =>
      refine speaks_send ?_ ⟨rfl, fun hw => ?_⟩
      · simp only [scheduleDeadline_sent, trackHolder, untrackPending, modifyClient_sent, putGrant_sent,
          unwrapOrNewV4_sent]
      · cases want with
        | nothing => exact hw
        | single => exact fun _ => ⟨⟨_, rfl, drawn_ne hw.2 env b⟩, _, rfl⟩
        | composite ks =>
          obtain ⟨c, hc, _⟩ := hw
          rw [hk] at hc
          cases hc
    | reader =>
      refine speaks_send ?_ ⟨rfl, fun hw => absurd hk hw.kind.1⟩
      simp only [trackHolder, untrackPending, modifyClient_sent, putGrant_sent, unwrapOrNewV4_sent]
    | writer =>
      refine speaks_send ?_ ⟨rfl, fun hw => absurd hk hw.kind.2⟩
      simp only [trackHolder, untrackPending, modifyClient_sent, putGrant_sent, unwrapOrNewV4_sent]
    | composite c => simp [PendingRequest.isComposite, hk] at hp
  · refine .inr ?_
    rw [grantHead_composite hc, grantMemberHead_last env hr]
    refine speaks_send (by rw [scheduleDeadline_sent, takeMember_sent]) ⟨rfl, fun hw => ?_⟩
    cases want with
    | nothing => exact hw
    | single => exact absurd (hc.symm.trans hw.1) (by simp)
    | composite ks =>
      obtain ⟨c', hc', hall, huuid, hwf⟩ := hw
      obtain rfl := PendingKind.composite.inj (hc.symm.trans hc')
      refine fun _ => ⟨hall, ⟨_, rfl, huuid⟩, _, rfl, fun k => ?_⟩
      -- the last key joins the ones it had
      rw [Std.ExtTreeMap.mem_insert, Std.LawfulEqCmp.compare_eq_iff_eq, hwf.tokens, hwf.split, hr, List.mem_append,
        List.mem_singleton, eq_comm, or_comm]
  · refine .inl ?_
    rw [grantHead_composite hc, grantMemberHead_next env hr]
    simp only [trackPending, modifyClient_sent, setLock_sent, lockOrDefault_sent, takeMember_sent]

end

namespace Tracks

variable {env : Env} {uuid : String} {want : Want} {b₀ b : Broker}

theorem grantHead (h : Tracks uuid want b₀ b) {key : String} {l : LockState} {p : PendingRequest}
    (hc : b.CanGrant key l p) : Tracks uuid want b₀ (b.grantHead env key l p).1 := by
  have hd : b.Does env none Action.Cascade (b.grantHead env key l p).1 := grantHead_does hc
  rcases grantHead_sent env want hc with hs | hs
  · exact h.silent hd (fun _ ha => ha.queues) hs
  · refine h.speaks hd (fun _ ha => ha.queues) hs fun r hr hu => hr.2 ?_
    obtain ⟨x, hx⟩ := hc.front
    exact h.waits key l hc.get _ (List.mem_of_mem_head? hx) (hr.1.symm.trans hu)

theorem maybeMarkIdle (h : Tracks uuid want b₀ b) (key : String) :
    Tracks uuid want b₀ (b.maybeMarkIdle env key) := by
  have hd : b.Does env none Action.Cascade (b.maybeMarkIdle env key) := maybeMarkIdle_does env b key fun _ => trivial
  exact h.silent hd (fun _ ha => ha.queues) (maybeMarkIdle_sent env b key)

theorem tryGrantNext (h : Tracks uuid want b₀ b) (key : String) : Tracks uuid want b₀ (b.tryGrantNext env key) :=
  tryGrantLoop_inv (fun _ key h => h.maybeMarkIdle key) (fun _ _ _ _ h hc => h.grantHead hc) _ b key h

theorem foldl {β : Type} {f : Broker → β → Broker} (hf : ∀ b x, Tracks uuid want b₀ b → Tracks uuid want b₀ (f b x)) :
    ∀ (xs : List β) (b : Broker), Tracks uuid want b₀ b → Tracks uuid want b₀ (xs.foldl f b)
  | [], _, h => h
  | x :: xs, b, h => foldl hf xs (f b x) (hf b x h)

theorem tryGrantAll (h : Tracks uuid want b₀ b) (keys : List String) :
    Tracks uuid want b₀ (b.tryGrantAll env keys) :=
  foldl (fun _ key h => h.tryGrantNext key) keys b h

end Tracks

/-! ## Requests -/

section

variable {env : Env} {b : Broker} {client : ClientId} {uuid key : String}

theorem handleExclusiveLock_speaks (pid : Option Int) (ttl : Option Duration) (max : Option Nat)
    (keep force wait : Bool) (overrides : GrantOverrides) :
    b.Speaks (fun r => r.correlationUuid = uuid ∧ (overrides.lockUuid ≠ some "" → Want.single.Answers r))
      (b.handleExclusiveLock env client uuid key pid ttl max keep force wait overrides) :=
  handleExclusiveLock_tells (fun b _ _ => ⟨rfl, fun hu _ => ⟨⟨_, rfl, drawn_ne hu env b⟩, _, rfl⟩⟩)
    (fun _ => ⟨rfl, fun _ h => by cases h⟩) pid ttl max keep force wait

theorem grantCompositeNow_speaks {keys ks : List String} (hkeys : keys = Vec.sortDedup ks) (pid : Option Int)
    (ttl : Option Duration) {lockUuid : String} (overrides : GrantOverrides) :
    b.Speaks (fun r => r.correlationUuid = uuid ∧ (lockUuid ≠ "" → (Want.composite ks).Answers r))
      (b.grantCompositeNow env client uuid keys pid ttl lockUuid overrides) :=
  grantCompositeNow_tells (fun _ htokens => ⟨rfl, fun hu _ => ⟨hkeys, ⟨_, rfl, hu⟩, _, rfl, htokens⟩⟩) pid ttl
    overrides

end

namespace Tracks

variable {env : Env} {uuid : String} {want : Want} {b₀ b : Broker}

theorem handleUnlock (h : Tracks uuid want b₀ b) (client : ClientId) {uuid' : String} (hne : uuid' ≠ uuid)
    (keys : List String) (lockUuid : Option String) (force : Bool) :
    Tracks uuid want b₀ (b.handleUnlock env client uuid' keys lockUuid force) := by
  unfold Broker.handleUnlock
  split
  · exact h.send env client hne
  · split
    · exact h.send env client hne
    · have hd : b.Does env none (Action.Releases fun _ _ => False) (b.unlockRelease env client keys lockUuid force) :=
        unlockRelease_does client keys lockUuid force
      have hrelease := h.silent hd (fun _ ha => ha.queues) (unlockRelease_sent keys lockUuid force)
      exact (hrelease.tryGrantAll keys).send env client hne

theorem handleEndRead (h : Tracks uuid want b₀ b) (client : ClientId) {uuid' : String} (hne : uuid' ≠ uuid)
    (key : String) : Tracks uuid want b₀ (b.handleEndRead env client uuid' key) := by
  unfold Broker.handleEndRead
  split
  · exact h.send env client hne
  · rename_i l hl
    have hd : b.Does env none (Action.Releases fun _ _ => False) (b.endReadRelease env client key l) :=
      endReadRelease_does client hl
    have hrelease := h.silent hd (fun _ ha => ha.queues) (endReadRelease_sent l)
    refine tryGrantNext ?_ key
    exact hrelease.send env client hne

theorem handleEndWrite (h : Tracks uuid want b₀ b) (client : ClientId) {uuid' : String} (hne : uuid' ≠ uuid)
    (key : String) : Tracks uuid want b₀ (b.handleEndWrite env client uuid' key) := by
  unfold Broker.handleEndWrite
  split
  · exact h.tryGrantNext key
  · rename_i l hl
    have hd : b.Does env none (Action.Releases fun _ _ => False) (b.endWriteRelease client key l) :=
      endWriteRelease_does client hl
    have hrelease := h.silent hd (fun _ ha => ha.queues) (endWriteRelease_sent l)
    refine tryGrantNext ?_ key
    exact hrelease.send env client hne

/-- A composite request: the one of the call itself, or one under another uuid. -/
theorem handleCompositeLock (h : Tracks uuid want b₀ b) (client : ClientId) {uuid' : String} {ks : List String}
    (pid : Option Int) (ttl : Option Duration) (wait : Bool) {overrides : GrantOverrides}
    (hown : uuid' = uuid → want = .composite ks ∧ ks ≠ [] ∧ ks.length ≤ maxCompositeKeys ∧ overrides.lockUuid ≠ some "") :
    Tracks uuid want b₀ (b.handleCompositeLock env client uuid' ks pid ttl wait overrides) := by
  unfold Broker.handleCompositeLock
  split
  · rename_i hbad
    refine h.send env client fun he => ?_
    obtain ⟨_, hne, hlen, _⟩ := hown he
    simp only [Bool.or_eq_true, List.isEmpty_iff, decide_eq_true_eq] at hbad
    exact hbad.elim hne (not_lt.2 hlen)
  · rename_i hlen
    simp only [Bool.or_eq_true, decide_eq_true_eq, not_or, not_lt] at hlen
    have hsorted := Vec.pairwise_sortDedup ks
    have hlen' := (Vec.length_sortDedup_le ks).trans hlen.2
    split
    · exact h
    · rename_i head rest hkeys
      rw [hkeys] at hsorted hlen'
      have hdrawn : (b.unwrapOrNewV4 env overrides.lockUuid).1.sent = b.sent := unwrapOrNewV4_sent ..
      have hlock : uuid' = uuid → (b.unwrapOrNewV4 env overrides.lockUuid).2 ≠ "" := fun he =>
        drawn_ne (hown he).2.2.2 env b
      dsimp only
      split
      · rename_i hfree
        have hd : b.Does env overrides.lockUuid (Action.GrantsNow client uuid' overrides (head :: rest))
            ((b.unwrapOrNewV4 env overrides.lockUuid).1.grantCompositeNow env client uuid' (head :: rest) pid ttl
              (b.unwrapOrNewV4 env overrides.lockUuid).2 overrides) :=
          grantCompositeNow_does (hsorted.imp ne_of_lt) hlen' (by simpa using hfree)
        refine h.speaks hd (fun _ ha => ha.queues)
          ((grantCompositeNow_speaks hkeys.symm pid ttl overrides).after hdrawn) fun r hr hu => ?_
        have he := hr.1.symm.trans hu
        rw [(hown he).1]
        exact hr.2 (hlock he)
      · split
        · have hd : b.Does env overrides.lockUuid (fun _ => False)
              ((b.unwrapOrNewV4 env overrides.lockUuid).1.send client
                (.compositeLock uuid' (head :: rest) false none none none)) :=
            .same (by simp) (by simp) (b.unwrapOrNewV4_reads env _) (by simp) (by simp)
          refine h.speaks hd (fun _ ha => ha.elim) (speaks_send hdrawn rfl) fun r hr hu => ?_
          subst hr
          rw [(hown hu).1]
          exact fun ha => by cases ha
        · -- the request is queued, told so, and its first key is tried
          refine tryGrantNext ?_ head
          have hd : b.Does env overrides.lockUuid (fun a => a.Queues (PendingRequest.Expected uuid want))
              ((b.unwrapOrNewV4 env overrides.lockUuid).1.queueComposite env client uuid' head (head :: rest) pid ttl
                (b.unwrapOrNewV4 env overrides.lockUuid).2 overrides) := by
            refine queueComposite_run hsorted hlen' rfl (fun _ => trivial) (fun _ => trivial) ?_
            intro he key hstarts
            rw [(hown he).1]
            exact ⟨_, rfl, hkeys.symm, hlock he, .of_starts hstarts rfl⟩
          refine h.speaks hd (fun _ ha => ha) (speaks_send ?_ rfl) fun r hr hu => ?_
          · simp only [trackPending, modifyClient_sent, maybeMarkIdle_sent, setLock_sent, lockOrDefault_sent,
              unwrapOrNewV4_sent]
          · subst hr
            rw [(hown hu).1]
            exact fun ha => by cases ha

/-- A request under another uuid. -/
theorem handleRequest (h : Tracks uuid want b₀ b) (client : ClientId) {request : Request} (hne : request.uuid ≠ uuid)
    (overrides : GrantOverrides) : Tracks uuid want b₀ (b.handleRequest env client request overrides) := by
  cases request with
  | version uuid' v => exact h.send env client hne
  | auth uuid' t => exact h.send env client hne
  | lock uuid' key keys pid ttl max force retry keep wait =>
    unfold Broker.handleRequest
    dsimp only
    split
    · cases keys <;> exact h.send env client hne
    · split
      · exact h.speaks (handleExclusiveLock_does _ _) (fun _ ha => ha.queues hne)
          (handleExclusiveLock_speaks _ _ _ _ _ _ _) fun r hr hu => absurd (hr.1.symm.trans hu) hne
      · exact h.handleCompositeLock client _ _ _ fun he => absurd he hne
      · exact h.send env client hne
      · exact h.send env client hne
  | unlock uuid' key keys lockUuid force =>
    unfold Broker.handleRequest
    dsimp only
    split
    · exact h.handleUnlock client hne _ _ _
    · exact h.handleUnlock client hne _ _ _
    · exact h.send env client hne
    · exact h.send env client hne
  | registerRead uuid' key =>
    have hsays : b.Speaks (fun r => r.correlationUuid = uuid') (b.handleRegisterRead env client uuid' key overrides) :=
      handleRegisterRead_tells (fun _ _ _ _ _ => rfl) overrides
    exact h.speaks handleRegisterRead_does (fun _ ha => ha.queues hne) hsays
      fun r hr hu => absurd (hr.symm.trans hu) hne
  | registerWrite uuid' key =>
    have hsays : b.Speaks (fun r => r.correlationUuid = uuid') (b.handleRegisterWrite env client uuid' key overrides) :=
      handleRegisterWrite_tells (fun _ _ _ _ _ => rfl) overrides
    exact h.speaks handleRegisterWrite_does (fun _ ha => ha.queues hne) hsays
      fun r hr hu => absurd (hr.symm.trans hu) hne
  | endRead uuid' key => exact h.handleEndRead client hne key
  | endWrite uuid' key => exact h.handleEndWrite client hne key
  | lockInfo uuid' key =>
    have hread : Tracks uuid want b₀ { b with reads := b.reads + 1 } := ⟨h.waits, h.told⟩
    unfold Broker.handleRequest
    dsimp only
    split <;> exact hread.send env client hne
  | ls uuid' =>
    have hread : Tracks uuid want b₀ { b with reads := b.reads + 1 } := ⟨h.waits, h.told⟩
    exact hread.send env client hne
  | heartbeat uuid' => exact h.send env client hne

theorem wakeTouched {d : Dropping} (h : Tracks uuid want b₀ d.broker) {wake : Broker → String → Broker}
    (hwake : ∀ b key, Tracks uuid want b₀ b → Tracks uuid want b₀ (wake b key)) :
    Tracks uuid want b₀ (Broker.wakeTouched env d wake) := by
  have hread : Tracks uuid want b₀ { d.broker with reads := d.broker.reads + 1 } := ⟨h.waits, h.told⟩
  exact foldl hwake _ _ hread

theorem dropClient (h : Tracks uuid want b₀ b) (client : ClientId) :
    Tracks uuid want b₀ (b.dropClient env client) := by
  unfold Broker.dropClient
  split
  · rename_i hc
    have hd : b.Does env none _ (b.dropUnregistered env client).broker := dropUnregistered_does hc
    exact (h.silent hd (fun _ ha => ha.queues) dropUnregistered_sent).wakeTouched fun _ key h =>
      (h.maybeMarkIdle key).tryGrantNext key
  · rename_i handle hc
    have hd : b.Does env none _ (b.dropRegistered env client handle).broker := dropRegistered_does hc
    exact (h.silent hd (fun _ ha => ha.queues) (dropRegistered_sent handle)).wakeTouched fun _ key h =>
      h.tryGrantNext key

theorem tickTtl (h : Tracks uuid want b₀ b) (now : Instant) : Tracks uuid want b₀ (b.tickTtl env now).1 := by
  have hd : b.Does env none (Action.Releases fun _ _ => False) (b.sweep now).broker := sweep_does now
  have hsweep := h.silent hd (fun _ ha => ha.queues) (sweep_sent now)
  have hwoken : Tracks uuid want b₀
      (Broker.wakeTouched env (b.sweep now).toDropping fun b key => b.tryGrantNext env key) :=
    wakeTouched hsweep fun _ key h => h.tryGrantNext key
  have hprune : Broker.Does env none Action.Prunes _ (b.tickTtl env now).1 := prune_does now
  exact hwoken.silent hprune (fun _ ha => ha.queues) (prune_sent now)

/-- Every operation but a request under the same uuid. -/
theorem apply (h : Tracks uuid want b₀ b) {op : Op} (hop : ∀ client r o, op = .request client r o → r.uuid ≠ uuid) :
    Tracks uuid want b₀ (b.apply env op) := by
  cases op with
  | registerClient => exact ⟨h.waits, h.told⟩
  | registerClientWithId id => exact ⟨h.waits, h.told⟩
  | request client request overrides => exact h.handleRequest client (hop client request overrides rfl) overrides
  | dropClient client => exact h.dropClient client
  | detachLockFromClient client u =>
    have hd : b.Does env none (fun _ => False) (b.detachLockFromClient client u) := detachLockFromClient_does client u
    exact h.silent hd (fun _ ha => ha.elim) (modifyClient_sent ..)
  | detachLockOwner u =>
    have hd : b.Does env none Action.Detaches (b.detachLockOwner u) := detachLockOwner_does u
    exact h.silent hd (fun _ ha => ha.queues) (detachLockOwner_sent u)
  | tickTtl now => exact h.tickTtl now

/-- Whole runs. -/
theorem applyEach (h : Tracks uuid want b₀ b) {later : List (Env × Op)}
    (hlater : ∀ e ∈ later, ∀ client r o, e.2 = .request client r o → r.uuid ≠ uuid) :
    Tracks uuid want b₀ (later.foldl (fun b e => b.apply e.1 e.2) b) := by
  induction later generalizing b with
  | nil => exact h
  | cons e later ih =>
    exact ih (h.apply (hlater e List.mem_cons_self)) fun e' he' => hlater e' (List.mem_cons_of_mem _ he')

end Tracks

/-- Nobody waits under the uuid, and nothing was said under it. -/
def Unused (b : Broker) (uuid : String) : Prop :=
  (∀ (key : String) (l : LockState), b.locks[key]? = some l → ∀ e ∈ l.queue.entries, e.2.requestUuid ≠ uuid) ∧
  ∀ s ∈ b.sent, s.response.correlationUuid ≠ uuid

theorem unused_of_all {b : Broker} {uuid : String}
    (hwait : (b.locks.toList.all fun kl => kl.2.queue.entries.all fun e => e.2.requestUuid ≠ uuid) = true)
    (hsent : (b.sent.all fun s => s.response.correlationUuid ≠ uuid) = true) : b.Unused uuid := by
  constructor
  · intro key l hl e he
    have hentry := List.all_eq_true.1 hwait (key, l) (OrdMap.mem_toList.2 hl)
    simpa using List.all_eq_true.1 hentry e he
  · intro s hs
    simpa using List.all_eq_true.1 hsent s hs

theorem Unused.expects {b : Broker} {uuid : String} (h : b.Unused uuid) (want : Want) :
    AllLocks (LockState.Expects uuid want) b.locks :=
  fun key l hl e he hu => absurd hu (h.1 key l hl e he)

theorem Unused.received {b : Broker} {uuid : String} (h : b.Unused uuid) {want : Want} {b' : Broker}
    (ht : Tracks uuid want b b') {client : ClientId} {r : Response} (hr : r ∈ b'.received client uuid) :
    want.Answers r := by
  obtain ⟨new, hnew, htold⟩ := ht.told
  simp only [Broker.received, List.mem_reverse, List.mem_map, List.mem_filter, Bool.and_eq_true,
    decide_eq_true_eq] at hr
  obtain ⟨s, ⟨hs, _, hu⟩, rfl⟩ := hr
  rw [hnew] at hs
  rcases List.mem_append.1 hs with hs | hs
  · exact htold s hs hu
  · exact absurd hu (h.2 s hs)

/-- After one response and nothing more under the uuid, that response is all
the client can have received. -/
theorem Unused.received_one {b : Broker} {uuid : String} (h : b.Unused uuid) {Q : Response → Prop} {b' b'' : Broker}
    (hs : b.Speaks Q b') (ht : Tracks uuid .nothing b' b'') {client : ClientId} {r : Response}
    (hr : r ∈ b''.received client uuid) : b''.received client uuid = [r] ∧ Q r := by
  obtain ⟨new, hnew, htold⟩ := ht.told
  obtain ⟨s, hs, hq⟩ := hs
  have hnone : ∀ sent : List Sent, (∀ s ∈ sent, s.response.correlationUuid ≠ uuid) →
      sent.filter (fun s => s.delivered && s.client = client && s.response.correlationUuid = uuid) = [] := by
    intro sent hsent
    refine List.filter_eq_nil_iff.2 fun s hs => ?_
    simp [hsent s hs]
  have hreceived : b''.received client uuid =
      (([s].filter fun s => s.delivered && s.client = client && s.response.correlationUuid = uuid).map
        Sent.response).reverse := by
    rw [Broker.received, hnew, hs, List.filter_append, hnone new fun s hs hu => (htold s hs hu).elim,
      ← List.singleton_append, List.filter_append, hnone b.sent h.2, List.nil_append, List.append_nil]
  rw [hreceived, List.filter_singleton] at hr ⊢
  cases hmatch : (s.delivered && s.client = client && s.response.correlationUuid = uuid) with
  | true =>
    rw [hmatch] at hr
    obtain rfl : r = s.response := by simpa using hr
    exact ⟨rfl, hq⟩
  | false =>
    rw [hmatch] at hr
    simp at hr

end Broker

namespace Call

/-- What the call waits for. -/
def want : Call → Want
  | .acquire _ | .acquireWithMax _ _ | .tryAcquire _ => .single
  | .acquireComposite keys | .tryAcquireComposite keys => .composite keys

/-- Whether the call waits in a queue. -/
def waits : Call → Bool
  | .acquire _ | .acquireWithMax _ _ | .acquireComposite _ => true
  | .tryAcquire _ | .tryAcquireComposite _ => false

/-- A call for several keys names two different ones at least. -/
def TwoKeys : Call → Prop
  | .acquire _ | .acquireWithMax _ _ | .tryAcquire _ => True
  | .acquireComposite keys | .tryAcquireComposite keys => 2 ≤ (Vec.sortDedup keys).length

end Call

/-! ## The request of a call -/

namespace Broker

section

variable {env : Env} {b : Broker} {client : ClientId} {uuid : String} {overrides : GrantOverrides}

/-- A composite request that does not wait gets one answer. -/
theorem handleCompositeLock_speaks {ks : List String} (hne : ks ≠ []) (hlen : ks.length ≤ maxCompositeKeys)
    (hlock : overrides.lockUuid ≠ some "") (pid : Option Int) (ttl : Option Duration) :
    b.Speaks (Want.composite ks).Answers (b.handleCompositeLock env client uuid ks pid ttl false overrides) := by
  unfold handleCompositeLock
  split
  · rename_i hbad
    simp only [Bool.or_eq_true, List.isEmpty_iff, decide_eq_true_eq] at hbad
    exact (hbad.elim hne (not_lt.2 hlen)).elim
  · split
    · rename_i hnil
      obtain ⟨k, hk⟩ := List.exists_mem_of_ne_nil ks hne
      exact absurd (Vec.mem_sortDedup.2 hk) (by simp [hnil])
    · rename_i head rest hkeys
      have hdrawn : (b.unwrapOrNewV4 env overrides.lockUuid).1.sent = b.sent := unwrapOrNewV4_sent ..
      dsimp only
      split
      · have hgrant : Speaks _ _ ((b.unwrapOrNewV4 env overrides.lockUuid).1.grantCompositeNow env client uuid
            (head :: rest) pid ttl (b.unwrapOrNewV4 env overrides.lockUuid).2 overrides) :=
          grantCompositeNow_speaks hkeys.symm pid ttl overrides
        obtain ⟨s, hs, hq⟩ := hgrant.after hdrawn
        exact ⟨s, hs, hq.2 (drawn_ne hlock env b)⟩
      · exact speaks_send hdrawn fun h => by cases h

end

end Broker

namespace Call

section

variable {env : Env} {b : Broker} {client : ClientId} {uuid : String} {pid : Int} {ttl : Nat} {call : Call}
  {request : Request} {overrides : GrantOverrides}

theorem compositeRequest_ok {keys : List String} {wait : Bool}
    (h : compositeRequest uuid pid ttl keys wait = .ok request) :
    keys ≠ [] ∧ keys.length ≤ maxCompositeKeys ∧ request = lockRequest uuid pid ttl none (some keys) none wait := by
  unfold compositeRequest at h
  split at h
  · cases h
  · rename_i hkeys
    simp only [Bool.or_eq_true, List.isEmpty_iff, decide_eq_true_eq, not_or, not_lt] at hkeys
    exact ⟨hkeys.1, hkeys.2, (Except.ok.inj h).symm⟩

theorem handleRequest_key {key : String} {max : Option Nat} {wait : Bool} (hmax : max ≠ some 0) :
    b.handleRequest env client (lockRequest uuid pid ttl (some key) none max wait) overrides =
      b.handleExclusiveLock env client uuid key (some pid) (some (Duration.fromMillis ttl)) max false false wait
        overrides := by
  simp only [lockRequest, Broker.handleRequest, if_neg hmax, Option.getD_some, Option.map_some]

theorem handleRequest_keys {keys : List String} {wait : Bool} :
    b.handleRequest env client (lockRequest uuid pid ttl none (some keys) none wait) overrides =
      b.handleCompositeLock env client uuid keys (some pid) (some (Duration.fromMillis ttl)) wait overrides := by
  simp only [lockRequest, Broker.handleRequest, reduceCtorEq, if_false, Option.getD_some, Option.map_some]

/-- The request of a call for one key. -/
theorem request_key (env : Env) (b : Broker) (client : ClientId) {key : String} {max : Option Nat} {wait : Bool}
    (hreq : request = lockRequest uuid pid ttl (some key) none max wait) (hmax : max ≠ some 0)
    (hlock : overrides.lockUuid ≠ some "") {want : Want} (hwant : wait = true → want = .single) :
    b.Does env overrides.lockUuid (fun a => a.Queues (PendingRequest.Expected uuid want))
      (b.handleRequest env client request overrides) ∧
    b.Speaks Want.single.Answers (b.handleRequest env client request overrides) := by
  rw [hreq, handleRequest_key hmax]
  constructor
  · refine Broker.handleExclusiveLock_run max wait (fun _ => trivial) trivial (fun _ => trivial)
      (fun _ _ _ _ _ => trivial) fun _ hw => ?_
    intro _ _ _
    rw [hwant hw]
    exact ⟨rfl, hlock⟩
  · obtain ⟨s, hs, hq⟩ : b.Speaks _ (b.handleExclusiveLock env client uuid key (some pid)
        (some (Duration.fromMillis ttl)) max false false wait overrides) :=
      Broker.handleExclusiveLock_speaks _ _ _ _ _ _ _
    exact ⟨s, hs, hq.2 hlock⟩

/-- The request of a call that waits. -/
theorem tracks_request (env : Env) (client : ClientId) (hreq : call.request uuid pid ttl = .ok request)
    (hwaits : call.waits = true) (hnew : b.Unused uuid) (hlock : overrides.lockUuid ≠ some "") :
    b.Tracks uuid call.want (b.handleRequest env client request overrides) := by
  have hstart := Broker.Tracks.refl (hnew.expects call.want)
  cases call with
  | acquire key =>
    obtain ⟨hd, hs⟩ := request_key env b client (Except.ok.inj hreq).symm (by simp) hlock fun _ => rfl
    exact hstart.speaks hd (fun _ h => h) hs fun r hr _ => hr
  | acquireWithMax key max =>
    simp only [Call.request] at hreq
    split at hreq
    · cases hreq
    · rename_i hmax
      obtain ⟨hd, hs⟩ := request_key env b client (Except.ok.inj hreq).symm (by simpa using hmax) hlock fun _ => rfl
      exact hstart.speaks hd (fun _ h => h) hs fun r hr _ => hr
  | acquireComposite keys =>
    obtain ⟨hne, hlen, rfl⟩ := compositeRequest_ok hreq
    rw [handleRequest_keys]
    exact hstart.handleCompositeLock client _ _ _ fun _ => ⟨rfl, hne, hlen, hlock⟩
  | tryAcquire key => cases hwaits
  | tryAcquireComposite keys => cases hwaits

/-- The request of a call that does not wait: one answer, and nobody queued. -/
theorem tries_request (env : Env) (client : ClientId) (hreq : call.request uuid pid ttl = .ok request)
    (hwaits : call.waits = false) (hnew : b.Unused uuid) (hlock : overrides.lockUuid ≠ some "") :
    b.Speaks call.want.Answers (b.handleRequest env client request overrides) ∧
    AllLocks (LockState.Expects uuid .nothing) (b.handleRequest env client request overrides).locks := by
  have hstart := hnew.expects .nothing
  cases call with
  | acquire key => cases hwaits
  | acquireWithMax key max => cases hwaits
  | acquireComposite keys => cases hwaits
  | tryAcquire key =>
    obtain ⟨hd, hs⟩ := request_key env b client (Except.ok.inj hreq).symm (by simp) hlock fun h => by cases h
    exact ⟨hs, (LockState.Expects.kept b.config).does hd (fun _ h => h) hstart⟩
  | tryAcquireComposite keys =>
    obtain ⟨hne, hlen, rfl⟩ := compositeRequest_ok hreq
    rw [handleRequest_keys]
    have hd : b.Does env overrides.lockUuid (fun a => a.Queues (PendingRequest.Expected uuid .nothing))
        (b.handleCompositeLock env client uuid keys (some pid) (some (Duration.fromMillis ttl)) false overrides) :=
      Broker.handleCompositeLock_run keys false (fun _ _ h => h.queues) (fun h => by cases h) (fun h => by cases h)
    exact ⟨Broker.handleCompositeLock_speaks hne hlen hlock _ _,
      (LockState.Expects.kept b.config).does hd (fun _ h => h) hstart⟩

end

/-! ## The guard comes back -/

/-- What answers the call and grants nothing is waited past. -/
theorem waitForAcquire_cons {want : Want} {resp : Response} (hans : want.Answers resp)
    (hacq : resp.acquired = false) (ended : ClientError) (rest : List Response) :
    waitForAcquire ended (resp :: rest) = waitForAcquire ended rest := by
  cases resp with
  | lock uuid key acquired n u t rc e =>
    obtain rfl : acquired = false := hacq
    rfl
  | compositeLock uuid keys acquired u t e =>
    obtain rfl : acquired = false := hacq
    rfl
  | _ => cases want <;> exact hans.elim

theorem waitForAcquire_find {want : Want} {r : Response} {guard : LockGuard} (hguard : r.guard = some guard)
    (ended : ClientError) : ∀ {responses : List Response}, (∀ r ∈ responses, want.Answers r) →
      responses.find? Response.acquired = some r → waitForAcquire ended responses = .ok guard
  | [], _, hfind => by cases hfind
  | resp :: rest, hall, hfind => by
    rw [List.find?_cons] at hfind
    cases hacq : resp.acquired with
    | true =>
      rw [hacq] at hfind
      obtain rfl := Option.some.inj hfind
      simp only [waitForAcquire, hguard]
    | false =>
      rw [hacq] at hfind
      rw [waitForAcquire_cons (hall resp List.mem_cons_self) hacq]
      exact waitForAcquire_find hguard ended (fun r hr => hall r (List.mem_cons_of_mem _ hr)) hfind

/-- An answer that grants with its tokens in range becomes a guard, which the facade
lets through unless it is a composite of one key. -/
theorem answer_guard {call : Call} {r : Response} (hans : call.want.Answers r)
    (hacq : r.acquired = true) (ht : ∀ t ∈ r.fencingTokens, validToken t = true) :
    ∃ guard, r.guard = some guard ∧ (validateGuard guard = .ok () ↔ call.TwoKeys) := by
  cases hwant : call.want with
  | nothing => cases call <;> cases hwant
  | single =>
    rw [hwant] at hans
    have hkeys : call.TwoKeys := by cases call <;> first | exact trivial | cases hwant
    cases r with
    | lock uuid key acquired n u t rc e =>
      obtain rfl : acquired = true := hacq
      obtain ⟨⟨u, rfl, hu⟩, t, rfl⟩ := hans rfl
      exact ⟨_, rfl, iff_of_true (validateGuard_single hu (ht t (by simp [Response.fencingTokens]))) hkeys⟩
    | _ => exact hans.elim
  | composite ks =>
    rw [hwant] at hans
    have hkeys : call.TwoKeys ↔ 2 ≤ (Vec.sortDedup ks).length := by
      cases call <;> first | cases hwant; exact Iff.rfl | cases hwant
    cases r with
    | compositeLock uuid keys acquired u t e =>
      obtain rfl : acquired = true := hacq
      obtain ⟨rfl, ⟨u, rfl, hu⟩, tokens, rfl, hdom⟩ := hans rfl
      refine ⟨_, rfl, fun h => hkeys.2 (two_le_of_validateGuard h), fun h => ?_⟩
      refine validateGuard_composite hu (hkeys.1 h) ((Vec.pairwise_sortDedup ks).imp ne_of_lt) hdom fun k t hk => ?_
      exact ht t (List.mem_map.2 ⟨(k, t), OrdMap.mem_toList.2 hk, rfl⟩)
    | _ => exact hans.elim

/-- **Every grant reaches the application, unless it is a composite of one key**:
once an acquire call has sent its request under a new uuid, in whatever state the
broker is, and whatever other operations follow, each in its own surroundings: when
the first answer `acquired: true` the broker delivered for it carries tokens in
`1..=MAX_FENCING_TOKEN`, and no frame for the client is over its cap, the call
returns the guard made of this answer exactly if it is for a single key or names two
different ones at least. -/
theorem returns_guard (call : Call) {b : Broker} {client : ClientId} {uuid : String} {pid : Int}
    {ttl : Nat} {request : Request} (hreq : call.request uuid pid ttl = .ok request) (hnew : b.Unused uuid)
    {env : Env} {overrides : GrantOverrides} (hlock : overrides.lockUuid ≠ some "") (later : List (Env × Op))
    (hlater : ∀ e ∈ later, ∀ client r o, e.2 = .request client r o → r.uuid ≠ uuid) {b' : Broker}
    (hb' : b' = later.foldl (fun b e => b.apply e.1 e.2) (b.apply env (.request client request overrides)))
    {r : Response} (hr : (b'.received client uuid).find? Response.acquired = some r)
    (ht : ∀ t ∈ r.fencingTokens, validToken t = true) {reader : ResponseReader}
    (hcap : ∀ s ∈ b'.sent, s.client = client → reader.frameBytes s.response ≤ reader.frameCap) (ended : ClientError) :
    (∃ guard, r.guard = some guard ∧ call.returns ended (b'.routed reader client uuid) = .ok (some guard)) ↔
      call.TwoKeys := by
  rw [Broker.routed_eq_received uuid hcap]
  have hmem := List.mem_of_find?_eq_some hr
  have hacq : r.acquired = true := by simpa using List.find?_some hr
  -- the raw client makes a guard of `r`
  have hraw : call.want.Answers r ∧ ∀ guard, r.guard = some guard →
      call.raw ended (b'.received client uuid) = .ok (some guard) := by
    cases hwaits : call.waits with
    | true =>
      have htracks : b.Tracks uuid call.want b' :=
        hb' ▸ (tracks_request env client hreq hwaits hnew hlock).applyEach hlater
      have hall : ∀ r ∈ b'.received client uuid, call.want.Answers r := fun _ => hnew.received htracks
      refine ⟨hall r hmem, fun guard hguard => ?_⟩
      have hwait := waitForAcquire_find hguard ended hall hr
      cases call with
      | tryAcquire key => cases hwaits
      | tryAcquireComposite keys => cases hwaits
      | _ => simp only [Call.raw, hwait, Except.map]
    | false =>
      obtain ⟨hspeaks, hquiet⟩ := tries_request env client hreq hwaits hnew hlock
      obtain ⟨hone, hans⟩ := hnew.received_one hspeaks (hb' ▸ (Broker.Tracks.refl hquiet).applyEach hlater) hmem
      refine ⟨hans, fun guard hguard => ?_⟩
      rw [hone]
      cases call with
      | tryAcquire key => simp only [Call.raw, tryAcquireAnswer, hguard]
      | tryAcquireComposite keys => simp only [Call.raw, tryAcquireAnswer, hguard]
      | _ => cases hwaits
  obtain ⟨guard, hguard, hvalid⟩ := answer_guard hraw.1 hacq ht
  rw [← hvalid]
  constructor
  · rintro ⟨guard', hguard', hreturns⟩
    obtain rfl := Option.some.inj (hguard.symm.trans hguard')
    simp only [Call.returns, hraw.2 guard hguard, bind, Except.bind] at hreturns
    split at hreturns
    · cases hreturns
    · assumption
  · intro hok
    exact ⟨guard, hguard, by simp only [Call.returns, hraw.2 guard hguard, bind, Except.bind, hok]⟩

/-- A client all of whose responses have frames of 200 bytes. -/
def shortFrames : ResponseReader where
  frameBytes _ := 200

/-- Client 2 holds `a`. -/
def heldBy2 : Broker := Sample.after [.registerClient, .registerClient, Sample.ask 2 (Sample.lock "q" "a")]

/-- Client 1 asks for `b` and `a` and waits, until `a` is unlocked. -/
def grantedTo1 : Broker :=
  (heldBy2.apply Sample.env (.request 1 (lockRequest "r" 7 60000 none (some ["b", "a"]) none true) {})).apply
    Sample.env (Sample.ask 2 (Sample.unlock "s" "a" "uu"))

/-- The call that waited returns its guard. -/
theorem returns_guard_grantedTo1 :
    ∃ guard, (acquireComposite ["b", "a"]).returns .timeout (grantedTo1.routed shortFrames 1 "r") =
      .ok (some guard) := by
  have hfound : ((grantedTo1.received 1 "r").find? Response.acquired).isSome = true := by decide +kernel
  have hvalid : ((grantedTo1.received 1 "r").all fun r => r.fencingTokens.all validToken) = true := by
    decide +kernel
  obtain ⟨r, hr⟩ := Option.isSome_iff_exists.1 hfound
  have hnew : heldBy2.Unused "r" := Broker.unused_of_all (by decide +kernel) (by decide +kernel)
  have hlater : ∀ e ∈ [(Sample.env, Sample.ask 2 (Sample.unlock "s" "a" "uu"))], ∀ client r o,
      e.2 = .request client r o → r.uuid ≠ "r" := by
    intro e he client r o h
    obtain rfl := List.mem_singleton.1 he
    obtain ⟨-, rfl, -⟩ := Op.request.inj h
    decide
  have htwo : (acquireComposite ["b", "a"]).TwoKeys := by
    show 2 ≤ (Vec.sortDedup ["b", "a"]).length
    decide +kernel
  have hreq : (acquireComposite ["b", "a"]).request "r" 7 60000 =
      .ok (lockRequest "r" 7 60000 none (some ["b", "a"]) none true) := rfl
  have hmem := List.mem_of_find?_eq_some hr
  have hcap : ∀ s ∈ grantedTo1.sent, s.client = 1 → shortFrames.frameBytes s.response ≤ shortFrames.frameCap := by
    intro s _ _
    show 200 ≤ 1024 * 1024
    decide
  obtain ⟨guard, -, hreturns⟩ := (returns_guard _ hreq hnew (by decide) _ hlater rfl hr
    (List.all_eq_true.1 (List.all_eq_true.1 hvalid r hmem)) hcap .timeout).2 htwo
  exact ⟨guard, hreturns⟩

/-- Client 1 asks for the one key `a` as a composite, nobody holds it. -/
def compositeOfOne : Broker :=
  (Sample.after [.registerClient]).apply Sample.env
    (.request 1 (lockRequest "r" 7 60000 none (some ["a"]) none true) {})

/-- The broker grants it with a token in range and goes on holding the key,
but the call returns an error. -/
theorem compositeOfOne_refused :
    Broker.Reachable Sample.config (Sample.after [.registerClient]) ∧
    (Sample.after [.registerClient]).Unused "r" ∧
    (acquireComposite ["a"]).request "r" 7 60000 = .ok (lockRequest "r" 7 60000 none (some ["a"]) none true) ∧
    (∃ r, (compositeOfOne.received 1 "r").find? Response.acquired = some r ∧
      ∀ t ∈ r.fencingTokens, validToken t = true) ∧
    (acquireComposite ["a"]).returns .timeout (compositeOfOne.routed shortFrames 1 "r") =
      .error (invalid "single-key grant omitted fencing_token") ∧
    (compositeOfOne.locks["a"]?.map fun l => l.exclusiveHolders.size) = some 1 := by
  have hfound : ((compositeOfOne.received 1 "r").find? Response.acquired).isSome = true := by decide +kernel
  have hvalid : ((compositeOfOne.received 1 "r").all fun r => r.fencingTokens.all validToken) = true := by
    decide +kernel
  obtain ⟨r, hr⟩ := Option.isSome_iff_exists.1 hfound
  refine ⟨Sample.reachable_after _, Broker.unused_of_all (by decide +kernel) (by decide +kernel), rfl, ⟨r, hr, ?_⟩,
    by decide +kernel, by decide +kernel⟩
  exact List.all_eq_true.1 (List.all_eq_true.1 hvalid r (List.mem_of_find?_eq_some hr))

end Call

end LiveMutex
