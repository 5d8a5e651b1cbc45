/-
Grants on the ledger: a waiter that gets its only or last key is served, a
composite that gets one goes on, and the rest of a cascade leaves the ledger as it
is.
-/
import LiveMutex.Ledger

namespace LiveMutex

/-! ## The table's part -/

namespace LockTable

variable {t t' t'' : LockTable} {key k : String} {l l' : LockState}

theorem queueAt_of_some (h : t[k]? = some l) : t.queueAt k = l.queue.entries := by
  rw [queueAt, h]
  rfl

theorem stakeAt_of_some (h : t[k]? = some l) (kind : RwHoldKind) (u : String) : t.stakeAt k kind u = l.stake kind u := by
  rw [stakeAt, h]
  rfl

theorem queueAt_insert : queueAt (t.insert key l) k = if key = k then l.queue.entries else t.queueAt k := by
  unfold queueAt
  rw [OrdMap.get_insert]
  split <;> rfl

theorem stakeAt_insert (kind : RwHoldKind) (u : String) :
    stakeAt (t.insert key l) k kind u = if key = k then l.stake kind u else t.stakeAt k kind u := by
  unfold stakeAt
  rw [OrdMap.get_insert]
  split <;> rfl

/-- The same queues and stakes. -/
structure Same (t t' : LockTable) : Prop where
  queue : ∀ k, t'.queueAt k = t.queueAt k
  stake : ∀ k kind u, t'.stakeAt k kind u = t.stakeAt k kind u

namespace Same

theorem refl : t.Same t := ⟨fun _ => rfl, fun _ _ _ => rfl⟩

theorem trans (h₁ : t.Same t') (h₂ : t'.Same t'') : t.Same t'' :=
  ⟨fun k => (h₂.queue k).trans (h₁.queue k), fun k kind u => (h₂.stake k kind u).trans (h₁.stake k kind u)⟩

theorem insert (h : t[key]? = some l) (hq : l'.queue = l.queue) (hs : l'.stake = l.stake) :
    t.Same (t.insert key l') where
  queue k := by
    rw [queueAt_insert]
    split
    · rename_i he
      subst he
      rw [queueAt_of_some h, hq]
    · rfl
  stake k kind u := by
    rw [stakeAt_insert]
    split
    · rename_i he
      subst he
      rw [stakeAt_of_some h, hs]
    · rfl

/-- A new entry has nobody on it. -/
theorem create {cfg : BrokerConfig} {floor : Nat} (h : t[key]? = none) (hl : l.Fresh cfg floor) :
    t.Same (t.insert key l) where
  queue k := by
    rw [queueAt_insert]
    split
    · rename_i he
      subst he
      rw [hl.queue, queueAt, h]
      rfl
    · rfl
  stake k kind u := by
    rw [stakeAt_insert]
    split
    · rename_i he
      subst he
      rw [stakeAt, h]
      cases kind <;> simp [LockState.stake, hl.exclusiveHolders, hl.readers, hl.writer]
    · rfl

end Same

end LockTable

/-- The kind of hold a grant of this mode makes. -/
def Mode.kind : Mode → RwHoldKind
  | .exclusive | .member => .exclusive
  | .reader => .read
  | .writer => .write

/-- Only a plain exclusive hold outlives its client. -/
def Terms.kept (terms : Terms) : Bool := terms.mode = .exclusive && terms.keepLocksAfterDeath

namespace LockState

theorem pop_stake (l : LockState) : l.pop.stake = l.stake := rfl

/-- The stakes of a key after a grant. -/
theorem take_stake {l : LockState} {terms : Terms} {g : Grant} (hw : terms.mode = .writer → l.writer = none)
    (kind : RwHoldKind) (u : String) : (l.take terms g).stake kind u =
      if terms.mode.kind = kind ∧ g.lockUuid = u then some ⟨g.client, terms.kept, g.token⟩ else l.stake kind u := by
  unfold take
  dsimp only
  rw [nextOrForcedFencingToken_eq]
  cases hm : terms.mode <;> cases kind <;>
    simp only [stake, holdExclusive, holdReader, holdWriter, Mode.kind, OrdMap.get_insert, Terms.kept, hm,
      reduceCtorEq, false_and, true_and, if_false]
  case exclusive.exclusive => split <;> simp [ExclusiveHolder.kept]
  case member.exclusive => split <;> simp [ExclusiveHolder.kept]
  case reader.read => split <;> simp
  case writer.write =>
    rw [hw hm]
    by_cases hu : g.lockUuid = u <;> simp [hu, Option.filter]

end LockState

theorem PendingRequest.terms_kind (p : PendingRequest) (key : String) :
    (p.terms key).mode.kind = (p.wants key).rwKind := by
  unfold PendingRequest.terms PendingRequest.wants
  cases p.kind <;> rfl

theorem PendingRequest.terms_kept (p : PendingRequest) (key : String) : (p.terms key).kept = p.keeps := by
  unfold PendingRequest.terms PendingRequest.keeps Terms.kept
  cases p.kind <;> simp

theorem Env.Dates.mono {env : Env} {lo lo' hi hi' : Nat} {u : String} {lock : KeysOfLock} {client : ClientId}
    {d : DeadlineKey × DeadlineEntry} (h : env.Dates lo hi u lock client d) (hlo : lo' ≤ lo) (hhi : hi ≤ hi') :
    env.Dates lo' hi' u lock client d := by
  obtain ⟨n, hn, hn', hnow⟩ := h.later
  exact ⟨h.entry, h.exclusive, h.seq, n, hlo.trans hn, hn'.trans_le hhi, hnow⟩

namespace Broker

variable {env : Env} {b b' : Broker} {key : String} {l : LockState} {p : PendingRequest}

/-! ## Handles -/

theorem modifyClient_congr {b b' : Broker} (h : b'.clients = b.clients) (client : ClientId)
    (f : ClientHandle → ClientHandle) : (b'.modifyClient client f).clients = (b.modifyClient client f).clients := by
  apply OrdMap.eq_of_get
  intro a
  rw [modifyClient_clients, modifyClient_clients, h]

theorem modifyClient_get (b : Broker) (client a : ClientId) (f : ClientHandle → ClientHandle) :
    (b.modifyClient client f).clients[a]? = if client = a then b.clients[a]?.map f else b.clients[a]? := by
  rw [modifyClient_clients]
  split
  · rename_i h; rw [h]
  · rfl

theorem modifyClient_modifyClient (b : Broker) (client a : ClientId) (f g : ClientHandle → ClientHandle) :
    ((b.modifyClient client f).modifyClient client g).clients[a]? =
      if client = a then b.clients[a]?.map (fun h => g (f h)) else b.clients[a]? := by
  rw [modifyClient_clients, modifyClient_clients, modifyClient_clients, if_pos rfl]
  split
  · rename_i h
    subst h
    exact Option.map_map _ _ _
  · rfl

theorem takeMember_clients {c : Composite} (a : ClientId) :
    (b.takeMember key l p c).1.clients[a]? = if p.client = a then
      b.clients[a]?.map (fun handle => handle.grant key p.requestUuid c.compositeLockUuid ⟨c.allKeys, .exclusive⟩)
      else b.clients[a]? := by
  simp only [takeMember, trackHolder, untrackPending]
  rw [modifyClient_modifyClient, putGrant_clients]
  rfl

@[simp] theorem takeMember_deadlines {c : Composite} : (b.takeMember key l p c).1.deadlines = b.deadlines := by
  simp only [takeMember, trackHolder, untrackPending, modifyClient_deadlines, putGrant_deadlines]

/-! ## What has been granted and told -/

theorem past_eq (hs : b'.sent = b.sent) (hg : b'.grants = b.grants) : b'.past = b.past := by
  unfold past
  rw [hs, hg]

theorem past_send {r : Response} (client : ClientId) (hr : r.awarded = none) : (b.send client r).past = b.past := by
  show Past.mk ((_ :: b.sent).filterMap _) _ = _
  rw [List.filterMap_cons, Sent.notice, hr]
  rfl

/-- Keys are granted, and the request is told. -/
theorem past_award (gs : List Grant) {a : Response} {x : String} {client : ClientId} {delivered : Bool}
    (ha : a.awarded = some x) (hs : b'.sent = ⟨client, a, delivered, b'.locks⟩ :: b.sent)
    (hg : b'.grants = gs.reverse ++ b.grants) :
    b'.past = ⟨⟨client, a, b'.locks.stakeAt⟩ :: b.past.notices,
      (gs.map fun g => (g.key, g.lockUuid, g.token)).reverse ++ b.past.minted⟩ := by
  unfold past
  rw [hs, hg, List.filterMap_cons, Sent.notice, ha, List.map_append, List.map_reverse]
  rfl

/-- A ledger, part by part. -/
theorem ledger_eq {v : Ledger} (hq : ∀ k, b.locks.queueAt k = v.queue k)
    (hs : ∀ k kind u, b.locks.stakeAt k kind u = v.stake k kind u) (hh : ∀ c : ClientId, b.clients[c]? = v.handle c)
    (hd : ∀ dk : DeadlineKey, b.deadlines[dk]? = v.due dk) (hp : b.past = v.past) (hr : b.reads = v.reads) :
    b.ledger = v :=
  Ledger.ext (funext hq) (funext fun k => funext fun kind => funext fun u => hs k kind u) (funext hh) (funext hd) hp hr

/-- Nothing happens on the ledger but readings. -/
structure Idles (b b' : Broker) : Prop where
  locks : b.locks.Same b'.locks
  clients : b'.clients = b.clients
  deadlines : b'.deadlines = b.deadlines
  past : b'.past = b.past
  reads : b.reads ≤ b'.reads

namespace Idles

theorem refl : b.Idles b := ⟨.refl, rfl, rfl, rfl, le_rfl⟩

theorem trans {b'' : Broker} (h₁ : b.Idles b') (h₂ : b'.Idles b'') : b.Idles b'' :=
  ⟨h₁.locks.trans h₂.locks, h₂.clients.trans h₁.clients, h₂.deadlines.trans h₁.deadlines, h₂.past.trans h₁.past,
    h₁.reads.trans h₂.reads⟩

theorem ledger (h : b.Idles b') : b'.ledger = b.ledger.asked b'.reads :=
  ledger_eq h.locks.queue h.locks.stake (fun c => by rw [h.clients]; rfl) (fun dk => by rw [h.deadlines]; rfl) h.past rfl

theorem grants (h : b.Idles b') : b.ledger.Grants env b'.ledger := .idle h.reads h.ledger

/-- A response that awards no lock. -/
theorem send (h : b.Idles b') (client : ClientId) {r : Response} (hr : r.awarded = none) : b.Idles (b'.send client r) :=
  { h with past := (past_send client hr).trans h.past }

theorem reading : b.Idles { b with reads := b.reads + 1 } := ⟨.refl, rfl, rfl, rfl, Nat.le_succ _⟩

theorem maybeMarkIdle (env : Env) (b : Broker) (key : String) : b.Idles (b.maybeMarkIdle env key) where
  locks := by
    rcases b.maybeMarkIdle_locks env key with h | ⟨l, at_, hl, _, h⟩
    · rw [h]
      exact .refl
    · rw [h]
      exact .insert hl rfl rfl
  clients := by simp
  deadlines := by simp
  past := past_eq (by simp) (by rw [maybeMarkIdle_eq])
  reads := b.maybeMarkIdle_reads env key

theorem lockOrDefault (env : Env) (b : Broker) (key : String) : b.Idles (b.lockOrDefault env key).1 where
  locks := by
    cases h : b.locks[key]? with
    | none =>
      obtain ⟨hf, he⟩ := b.lockOrDefault_of_none env key h
      rw [he]
      exact .create h hf
    | some l =>
      rw [b.lockOrDefault_of_some env key h]
      exact .refl
  clients := by simp
  deadlines := by simp
  past := past_eq (by simp) (by rw [lockOrDefault_eq])
  reads := b.lockOrDefault_reads env key

theorem foldl {β : Type} {f : Broker → β → Broker} (hf : ∀ b x, Idles b (f b x)) (xs : List β) (b : Broker) :
    b.Idles (xs.foldl f b) :=
  List.foldlRecOn (motive := fun b' : Broker => b.Idles b') xs _ .refl fun b' h x _ => h.trans (hf b' x)

end Idles

/-! ## Grants to heads of queues -/

/-- Deadlines are recorded for a lock, at most one. -/
def Schedules (env : Env) (ttl : Option Duration) (u : String) (lock : KeysOfLock) (client : ClientId) (b b' : Broker) :
    Prop :=
  ∃ d : Option (DeadlineKey × DeadlineEntry),
    (∀ e ∈ d, env.Dates b.reads b'.reads u lock client e ∧ ttl.isSome) ∧
    ∀ dk : DeadlineKey, b'.deadlines[dk]? = (b.ledger.schedule d).due dk

theorem Schedules.none {ttl : Option Duration} {u : String} {lock : KeysOfLock} {client : ClientId}
    (h : b'.deadlines = b.deadlines) : b.Schedules env ttl u lock client b' :=
  ⟨.none, by simp, fun dk => by rw [h]; rfl⟩

/-- What is done before and after it, and sets no deadline. -/
theorem Schedules.within {b₀ b₁ : Broker} {ttl : Option Duration} {u : String} {lock : KeysOfLock} {client : ClientId}
    (h : b₀.Schedules env ttl u lock client b₁) (hr : b.reads ≤ b₀.reads) (hd : b₀.deadlines = b.deadlines)
    (hr' : b₁.reads ≤ b'.reads) (hd' : b'.deadlines = b₁.deadlines) : b.Schedules env ttl u lock client b' := by
  obtain ⟨d, hdates, hdue⟩ := h
  refine ⟨d, fun e he => ⟨(hdates e he).1.mono hr hr', (hdates e he).2⟩, fun dk => ?_⟩
  rw [hd', hdue]
  simp only [Ledger.schedule, ledger, hd]

theorem scheduleDeadline_schedules (env : Env) (b : Broker) (ttl : Option Duration) (u : String) (keys : List String)
    (client : ClientId) :
    b.Schedules env ttl u ⟨keys, .exclusive⟩ client (b.scheduleDeadline env ttl u keys .exclusive client) := by
  unfold scheduleDeadline
  split
  · exact .none rfl
  · split
    · exact .none rfl
    · rename_i hpos
      split
      · exact .none rfl
      · rename_i deadline hadd
        have hnow : env.now b.reads < deadline := by
          unfold Env.checkedAdd at hadd
          split at hadd
          · obtain rfl := Option.some.inj hadd
            exact Int.lt_add_of_pos_right _ (Int.natCast_pos.2 (Nat.pos_of_ne_zero hpos))
          · cases hadd
        refine ⟨some ((deadline, (b.deadlineSeq + 1) % 2 ^ 64), ⟨u, keys, .exclusive, client⟩), fun e he => ?_,
          fun dk => ?_⟩
        · obtain rfl := Option.some.inj he
          exact ⟨⟨rfl, rfl, Nat.le_of_lt_succ (Nat.mod_lt _ (by decide)), b.reads, le_rfl, Nat.lt_succ_self _, hnow⟩, rfl⟩
        dsimp only
        rw [OrdMap.get_insert]
        generalize (deadline, (b.deadlineSeq + 1) % 2 ^ 64) = at_
        by_cases h : at_ = dk
        · simp [Ledger.schedule, h, Option.filter]
        · simp [Ledger.schedule, h, Option.filter, ledger]

/-- The queues after the head has left one. -/
theorem CanGrant.queueAt (h : b.CanGrant key l p) (terms : Terms) (g : Grant) (k : String) :
    LockTable.queueAt (b.locks.insert key (l.pop.take terms g)) k = (b.ledger.pop key).queue k := by
  rw [LockTable.queueAt_insert, LockState.take_queue]
  show _ = if key = k then (b.locks.queueAt k).tail else b.locks.queueAt k
  split
  · rename_i he
    subst he
    rw [LockTable.queueAt_of_some h.get, LockState.pop, LinkedQueue.entries_popFront]
  · rfl

/-- The stakes after the head has got the key. -/
theorem CanGrant.stakeAt (h : b.CanGrant key l p) {g : Grant} (hg : g.client = p.client) (k : String) (kind : RwHoldKind)
    (w : String) : LockTable.stakeAt (b.locks.insert key (l.pop.take (p.terms key) g)) k kind w =
      (b.ledger.give [key] (p.wants key).rwKind g.lockUuid fun _ => ⟨p.client, p.keeps, g.token⟩).stake k kind w := by
  have hw : (p.terms key).mode = .writer → l.pop.writer = none := by
    intro hm
    have ha := h.admits
    rw [hm] at ha
    simp only [LockState.admits, LockState.vacant, Bool.and_eq_true, Option.isNone_iff_eq_none] at ha
    exact ha.1.1
  rw [LockTable.stakeAt_insert, LockState.take_stake hw, LockState.pop_stake, p.terms_kind, p.terms_kept,
    hg]
  show _ = if k ∈ [key] ∧ _ ∧ _ then _ else b.locks.stakeAt k kind w
  by_cases hk : key = k
  · subst hk
    simp [LockTable.stakeAt_of_some h.get]
  · simp [hk, Ne.symm hk]

theorem CanGrant.front_eq (hs : b.Sane) (h : b.CanGrant key l p) : l.queue.front = some (p.requestUuid, p) := by
  obtain ⟨x, hx⟩ := h.front
  have hxp : x = p.requestUuid := hs.keyed key l h.get _ (List.mem_of_mem_head? hx)
  rw [hx, hxp]

/-- What is known of a composite at the head. -/
theorem CanGrant.wf {c : Composite} (hs : b.Sane) (h : b.CanGrant key l p) (hk : p.kind = .composite c) : c.Wf key := by
  obtain ⟨x, hx⟩ := h.front
  exact hs.composites key l h.get _ (List.mem_of_mem_head? hx) c hk

theorem CanGrant.queue (hs : b.Sane) (h : b.CanGrant key l p) :
    b.ledger.queue key = (p.requestUuid, p) :: l.queue.entries.tail := by
  have hfront := h.front_eq hs
  show b.locks.queueAt key = _
  rw [LockTable.queueAt_of_some h.get]
  unfold LinkedQueue.front at hfront
  cases hq : l.queue.entries with
  | nil => rw [hq] at hfront; cases hfront
  | cons e rest =>
    rw [hq] at hfront
    rw [Option.some.inj hfront]
    rfl

/-- A waiter is handed its only or last key, and told. -/
theorem CanGrant.serves {a : Response} (hs : b.Sane) (h : b.CanGrant key l p)
    (hlast : ∀ c, p.kind = .composite c → c.allKeys = c.grantedKeys ++ [key])
    (hgives : env.Gives p.reserved b.reads b'.reads (b.headGrant env key l p).lockUuid)
    (hreads : b.reads ≤ b'.reads)
    (hlocks : b'.locks = b.locks.insert key (l.pop.take (p.terms key) (b.headGrant env key l p)))
    (hclients : ∀ a : ClientId, b'.clients[a]? = if p.client = a then
      b.clients[a]?.map (fun handle =>
        handle.grant key p.requestUuid (b.headGrant env key l p).lockUuid (p.wants key))
      else b.clients[a]?)
    (hdue : b.Schedules env p.ttl (b.headGrant env key l p).lockUuid (p.wants key) p.client b')
    (ha : a.Awards p.requestUuid (p.wants key) (b.headGrant env key l p).lockUuid fun k =>
      if key = k then some (b.headGrant env key l p).token else p.collected k)
    (hgrants : b'.grants = b.headGrant env key l p :: b.grants)
    (hsent : ∃ delivered, b'.sent = ⟨p.client, a, delivered, b'.locks⟩ :: b.sent) : b.ledger.Grants env b'.ledger := by
  obtain ⟨d, hd, hdl⟩ := hdue
  obtain ⟨_, hsent⟩ := hsent
  have hstake : ∀ k kind w, b'.locks.stakeAt k kind w = (b.ledger.hand key p (b.headGrant env key l p).lockUuid
      (b.headGrant env key l p).token).stake k kind w := by
    intro k kind w
    rw [hlocks]
    exact h.stakeAt rfl k kind w
  refine .serve (b.headGrant env key l p).token (h.queue hs) hlast hgives hreads ha hd ?_
  refine ledger_eq (fun k => ?_) hstake hclients hdl ?_ rfl
  · rw [hlocks]
    exact h.queueAt _ _ k
  · rw [past_award [b.headGrant env key l p] ha.awarded hsent hgrants,
      funext fun k => funext fun kind => funext (hstake k kind)]
    rfl

theorem headGrant_lockUuid (env : Env) (b : Broker) (key : String) (l : LockState) (hp : p.isComposite = false) :
    (b.headGrant env key l p).lockUuid = (b.unwrapOrNewV4 env p.grantLockUuid).2 := by
  cases hk : p.kind with
  | composite c => simp [PendingRequest.isComposite, hk] at hp
  | _ => simp [headGrant, hk]

theorem headGrant_token (env : Env) (b : Broker) (key : String) (l : LockState) (hp : p.isComposite = false) :
    (b.headGrant env key l p).token = (l.pop.nextOrForcedFencingToken p.grantFencingSeed).2 := by
  rw [LockState.pop_nextOrForcedFencingToken]
  cases hk : p.kind with
  | composite c => simp [PendingRequest.isComposite, hk] at hp
  | _ => simp [headGrant, PendingRequest.terms, hk]

/-- The uuid of a waiter that is no composite. -/
theorem headGrant_gives (env : Env) (b : Broker) (key : String) (l : LockState) (hp : p.isComposite = false) {n : Nat}
    (hn : (b.unwrapOrNewV4 env p.grantLockUuid).1.reads ≤ n) :
    env.Gives p.reserved b.reads n (b.headGrant env key l p).lockUuid := by
  rw [PendingRequest.reserved_of_single hp, headGrant_lockUuid env b key l hp]
  exact (b.unwrapOrNewV4_snd env p.grantLockUuid).imp_right fun h => ⟨h.1, h.2.mono le_rfl hn⟩

/-- A waiter that is no composite. -/
theorem grantHead_serves (hs : b.Sane) (h : b.CanGrant key l p) (hp : p.isComposite = false) :
    b.ledger.Grants env (b.grantHead env key l p).1.ledger := by
  have hu := headGrant_lockUuid env b key l hp
  have hle := b.unwrapOrNewV4_reads env p.grantLockUuid
  have hlast : ∀ c, p.kind = .composite c → c.allKeys = c.grantedKeys ++ [key] := by
    intro c hc
    simp [PendingRequest.isComposite, hc] at hp
  cases hk : p.kind with
  | composite c => simp [PendingRequest.isComposite, hk] at hp
  | exclusive =>
    rw [show b.grantHead env key l p = (b.grantExclusiveHead env key l p, none) by simp [grantHead, hk]]
    have hwants : p.wants key = ⟨[key], .exclusive⟩ := by simp [PendingRequest.wants, hk]
    have hreads : (b.unwrapOrNewV4 env p.grantLockUuid).1.reads ≤ (b.grantExclusiveHead env key l p).reads := by
      refine le_trans (le_of_eq ?_) (scheduleDeadline_reads env _ _ _ _ _ _)
      simp only [trackHolder, untrackPending, modifyClient_reads, putGrant_reads]
    refine h.serves hs hlast (headGrant_gives env b key l hp hreads) (hle.trans hreads) (grantExclusiveHead_locks hk)
      (fun a => ?_) ?_ ⟨rfl, ?_⟩ (grantExclusiveHead_grants hk) ⟨_, congrArg (List.cons _) ?_⟩
    · simp only [grantExclusiveHead, send_clients, scheduleDeadline_clients, trackHolder, untrackPending]
      rw [modifyClient_modifyClient, putGrant_clients, unwrapOrNewV4_clients, hu, hwants]
      rfl
    · rw [hu, hwants]
      refine Schedules.within (scheduleDeadline_schedules env _ p.ttl _ [key] p.client) ?_ ?_ le_rfl rfl
      · simpa only [trackHolder, untrackPending, modifyClient_reads, putGrant_reads] using hle
      · simp only [trackHolder, untrackPending, modifyClient_deadlines, putGrant_deadlines, unwrapOrNewV4_deadlines]
    · rw [hu, hwants]
      simp only [Response.award, PendingRequest.collected, hk, headGrant_token env b key l hp]
    · simp only [scheduleDeadline_sent, trackHolder, untrackPending, modifyClient_sent, putGrant_sent, unwrapOrNewV4_sent]
  | reader =>
    rw [show b.grantHead env key l p = (b.grantReaderHead env key l p, none) by simp [grantHead, hk]]
    have hwants : p.wants key = ⟨[key], .read⟩ := by simp [PendingRequest.wants, hk]
    have hreads : (b.unwrapOrNewV4 env p.grantLockUuid).1.reads ≤ (b.grantReaderHead env key l p).reads := by
      simp only [grantReaderHead, trackHolder, untrackPending, send_reads, modifyClient_reads, putGrant_reads, le_refl]
    refine h.serves hs hlast (headGrant_gives env b key l hp hreads) (hle.trans hreads) (grantReaderHead_locks hk)
      (fun a => ?_) (.none ?_) ⟨rfl, ?_⟩ (grantReaderHead_grants hk) ⟨_, congrArg (List.cons _) ?_⟩
    · simp only [grantReaderHead, send_clients, trackHolder, untrackPending]
      rw [modifyClient_modifyClient, putGrant_clients, unwrapOrNewV4_clients, hu, hwants]
      rfl
    · simp only [grantReaderHead, send_deadlines, trackHolder, untrackPending, modifyClient_deadlines,
        putGrant_deadlines, unwrapOrNewV4_deadlines]
    · rw [hu, hwants]
      simp only [Response.award, PendingRequest.collected, hk, headGrant_token env b key l hp]
    · simp only [trackHolder, untrackPending, modifyClient_sent, putGrant_sent, unwrapOrNewV4_sent]
  | writer =>
    rw [show b.grantHead env key l p = (b.grantWriterHead env key l p, none) by simp [grantHead, hk]]
    have hwants : p.wants key = ⟨[key], .write⟩ := by simp [PendingRequest.wants, hk]
    have hreads : (b.unwrapOrNewV4 env p.grantLockUuid).1.reads ≤ (b.grantWriterHead env key l p).reads := by
      simp only [grantWriterHead, trackHolder, untrackPending, send_reads, modifyClient_reads, putGrant_reads, le_refl]
    refine h.serves hs hlast (headGrant_gives env b key l hp hreads) (hle.trans hreads) (grantWriterHead_locks hk)
      (fun a => ?_) (.none ?_) ⟨rfl, ?_⟩ (grantWriterHead_grants hk) ⟨_, congrArg (List.cons _) ?_⟩
    · simp only [grantWriterHead, send_clients, trackHolder, untrackPending]
      rw [modifyClient_modifyClient, putGrant_clients, unwrapOrNewV4_clients, hu, hwants]
      rfl
    · simp only [grantWriterHead, send_deadlines, trackHolder, untrackPending, modifyClient_deadlines,
        putGrant_deadlines, unwrapOrNewV4_deadlines]
    · rw [hu, hwants]
      simp only [Response.award, PendingRequest.collected, hk, headGrant_token env b key l hp]
    · simp only [trackHolder, untrackPending, modifyClient_sent, putGrant_sent, unwrapOrNewV4_sent]

section

variable {c : Composite} (hk : p.kind = .composite c)

include hk

theorem headGrant_composite (env : Env) (b : Broker) (key : String) (l : LockState) :
    (b.headGrant env key l p).lockUuid = c.compositeLockUuid := by
  simp [headGrant, hk]

theorem wants_composite (key : String) : p.wants key = ⟨c.allKeys, .exclusive⟩ := by simp [PendingRequest.wants, hk]

/-- A composite on its last key. -/
theorem grantMemberHead_serves (hs : b.Sane) (h : b.CanGrant key l p) (hr : c.remainingKeys = [key]) :
    b.ledger.Grants env (b.grantMemberHead env key l p c).1.ledger := by
  have hu := headGrant_composite hk env b key l
  have hreads : b.reads ≤ (b.grantMemberHead env key l p c).1.reads := by
    rw [grantMemberHead_last env hr]
    exact le_trans (by rw [takeMember_reads]) (scheduleDeadline_reads env _ _ _ _ _ _)
  refine h.serves hs (fun c' hc' => ?_) (.inl ?_) hreads ?_ (fun a => ?_) ?_
    (a := .compositeLock p.requestUuid c.allKeys true (some c.compositeLockUuid)
      (some (c.grantedTokens.insert key (b.takeMember key l p c).2)) none) ⟨rfl, ?_⟩ ?_ ?_
  · rw [hk] at hc'
    obtain rfl := PendingKind.composite.inj hc'
    rw [(h.wf hs hk).split, hr]
  · rw [hu, PendingRequest.reserved, hk]
  · rw [grantMemberHead_last env hr, send_locks, scheduleDeadline_locks, takeMember_locks env hk]
  · rw [grantMemberHead_last env hr, send_clients, scheduleDeadline_clients, takeMember_clients, hu, wants_composite hk key]
  · rw [grantMemberHead_last env hr, hu, wants_composite hk key]
    exact (scheduleDeadline_schedules env (b.takeMember key l p c).1 p.ttl c.compositeLockUuid c.allKeys
      p.client).within (by rw [takeMember_reads]) takeMember_deadlines le_rfl rfl
  · rw [hu, wants_composite hk key, takeMember_snd env hk]
    simp only [Response.award, PendingRequest.collected, hk, OrdMap.get_insert]
  · rw [grantMemberHead_last env hr, send_grants, scheduleDeadline_grants, takeMember_grants env hk]
  · rw [grantMemberHead_last env hr]
    exact ⟨_, congrArg (List.cons _) (by rw [scheduleDeadline_sent, takeMember_sent])⟩

theorem takeMember_ledger (env : Env) (h : b.CanGrant key l p) :
    (b.takeMember key l p c).1.ledger = b.ledger.hand key p c.compositeLockUuid (b.takeMember key l p c).2 := by
  have hu := headGrant_composite hk env b key l
  refine ledger_eq ?_ (fun k kind w => ?_) (fun a => ?_) (fun dk => ?_) ?_ ?_
  · rw [takeMember_locks env hk]
    exact h.queueAt _ _
  · rw [takeMember_locks env hk, h.stakeAt rfl, hu, takeMember_snd env hk]
    rfl
  · rw [takeMember_clients, ← wants_composite hk key]
    rfl
  · rw [takeMember_deadlines]
    rfl
  · rw [takeMember_snd env hk, ← hu]
    unfold past
    rw [takeMember_sent, takeMember_grants env hk]
    rfl
  · rw [takeMember_reads]
    rfl

omit hk in
/-- A request is queued. -/
theorem enqueue_ledger (h : b.locks[key]? = some l) (p : PendingRequest) (first : Bool) :
    ((b.setLock key (if first then l.pushFirst p else l.push p)).trackPending p.client key p.requestUuid).ledger =
      b.ledger.enqueue key p first := by
  refine ledger_eq (fun k => ?_) (fun k kind w => ?_) (fun a => ?_) (fun dk => ?_) ?_ ?_
  · simp only [trackPending, modifyClient_locks, setLock_locks]
    rw [LockTable.queueAt_insert]
    show _ = if key = k ∧ p.requestUuid ∉ (b.locks.queueAt k).map Prod.fst then
      if first then (p.requestUuid, p) :: b.locks.queueAt k else b.locks.queueAt k ++ [(p.requestUuid, p)]
      else b.locks.queueAt k
    by_cases hk : key = k
    · subst hk
      rw [LockTable.queueAt_of_some h, if_pos rfl]
      cases first
      · simp only [LockState.push, LinkedQueue.entries_pushBack, LinkedQueue.contains, Bool.false_eq_true, if_false]
        by_cases hm : p.requestUuid ∈ l.queue.entries.map Prod.fst <;> simp only [hm, decide_true, decide_false,
          Bool.false_eq_true, not_true, not_false_eq_true, and_true, and_false, if_true, if_false]
      · simp only [LockState.pushFirst, LinkedQueue.entries_pushFront, LinkedQueue.contains, if_true]
        by_cases hm : p.requestUuid ∈ l.queue.entries.map Prod.fst <;> simp only [hm, decide_true, decide_false,
          Bool.false_eq_true, not_true, not_false_eq_true, and_true, and_false, if_true, if_false]
    · simp [hk]
  · simp only [trackPending, modifyClient_locks, setLock_locks]
    rw [LockTable.stakeAt_insert]
    show _ = b.locks.stakeAt k kind w
    by_cases hk : key = k
    · subst hk
      rw [LockTable.stakeAt_of_some h, if_pos rfl]
      cases first <;> rfl
    · rw [if_neg hk]
  · simp only [trackPending]
    rw [modifyClient_get]
    rfl
  · simp only [trackPending, modifyClient_deadlines, setLock_deadlines]
    rfl
  · refine past_eq ?_ ?_
    · simp only [trackPending, modifyClient_sent, setLock_sent]
    · simp only [trackPending, modifyClient_grants, setLock_grants]
  · simp only [trackPending, modifyClient_reads, setLock_reads]
    rfl

/-- A composite with keys to come. -/
theorem grantMemberHead_advances (hs : b.Sane) (h : b.CanGrant key l p) {next : String} {rest : List String}
    (hr : c.remainingKeys = key :: next :: rest) :
    b.ledger.Grants env (b.grantMemberHead env key l p c).1.ledger := by
  have htaken := takeMember_ledger hk env h
  have hidle := Idles.lockOrDefault env (b.takeMember key l p c).1 next
  have hget := lockOrDefault_get env (b.takeMember key l p c).1 next
  have hall := (h.wf hs hk).split
  rw [hr] at hall
  rw [grantMemberHead_next env hr]
  dsimp only
  generalize (b.takeMember key l p c).2 = token at *
  refine .advance token ((b.takeMember key l p c).1.lockOrDefault env next).1.reads (h.queue hs) hk hall ?_ ?_
  · exact le_trans (by rw [takeMember_reads]; exact le_rfl) hidle.reads
  · have hpush := enqueue_ledger hget (p.moved (c.advance key token)) false
    rw [hidle.ledger, htaken] at hpush
    exact hpush

end

theorem grantHead_ledger (hs : b.Sane) (h : b.CanGrant key l p) :
    b.ledger.Grants env (b.grantHead env key l p).1.ledger := by
  rcases h.cases with hp | ⟨c, hc, hr⟩ | ⟨c, next, rest, hc, hr⟩
  · exact grantHead_serves hs h hp
  · rw [grantHead_composite hc]
    exact grantMemberHead_serves hc hs h hr
  · rw [grantHead_composite hc]
    exact grantMemberHead_advances hc hs h hr

/-- A cascade through sane states. -/
structure Settles (env : Env) (b b' : Broker) : Prop where
  sane : b.Sane → b'.Sane
  cascade : b.Sane → b.ledger.Cascade env b'.ledger

namespace Settles

theorem trans {b'' : Broker} (h₁ : b.Settles env b') (h₂ : b'.Settles env b'') : b.Settles env b'' where
  sane hs := h₂.sane (h₁.sane hs)
  cascade hs := (h₁.cascade hs).trans (h₂.cascade (h₁.sane hs))

theorem foldl {β : Type} {f : Broker → β → Broker} (hf : ∀ (b : Broker) (x : β), b.Settles env (f b x)) :
    ∀ (xs : List β) (b : Broker), b.Settles env (xs.foldl f b)
  | [], _ => ⟨id, fun _ => .refl⟩
  | x :: xs, b => (hf b x).trans (foldl hf xs (f b x))

theorem of_idles (h : b.Idles b') (hs : b.Sane → b'.Sane) : b.Settles env b' := ⟨hs, fun _ => .single h.grants⟩

theorem maybeMarkIdle (env : Env) (b : Broker) (key : String) : b.Settles env (b.maybeMarkIdle env key) :=
  of_idles (.maybeMarkIdle env b key) fun hs =>
    have hdoes : b.Does env none Action.Cascade (b.maybeMarkIdle env key) :=
      maybeMarkIdle_does env b key fun _ => trivial
    hs.does hdoes

theorem tryGrantNext (env : Env) (b : Broker) (key : String) : b.Settles env (b.tryGrantNext env key) where
  sane hs := hs.tryGrantNext env key
  cascade hs := by
    have hrun : (b.tryGrantNext env key).Sane ∧ b.ledger.Cascade env (b.tryGrantNext env key).ledger := by
      refine tryGrantLoop_inv (I := fun b' => b'.Sane ∧ b.ledger.Cascade env b'.ledger) (fun b' k h => ?_)
        (fun b' k l p h hc => ?_) _ b key ⟨hs, .refl⟩
      · exact ⟨(maybeMarkIdle env b' k).sane h.1, h.2.trans ((maybeMarkIdle env b' k).cascade h.1)⟩
      · have hdoes : b'.Does env none Action.Cascade (b'.grantHead env k l p).1 := grantHead_does hc
        exact ⟨h.1.does hdoes, h.2.tail (grantHead_ledger h.1 hc)⟩
    exact hrun.2

theorem tryGrantAll (env : Env) (b : Broker) (keys : List String) : b.Settles env (b.tryGrantAll env keys) :=
  foldl (fun b key => tryGrantNext env b key) keys b

end Settles

end Broker

end LiveMutex
