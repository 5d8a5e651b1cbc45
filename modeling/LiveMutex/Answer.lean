/-
Every request is answered: before a handler returns it has sent its client a
response under the request's uuid. The one that does not is `handle_end_write`
on a key without an entry, which sends nothing at all.

`Goes` is what is known of any stretch of a handler: it takes back nothing that
was sent, and registers and forgets no client.
-/
import LiveMutex.Sample
import LiveMutex.Sends

namespace LiveMutex

/-- `correlation_uuid` -/
def Response.correlationUuid : Response → String
  | .version uuid .. | .auth uuid .. | .lock uuid .. | .compositeLock uuid .. | .unlock uuid ..
  | .registerReadResult uuid .. | .registerWriteResult uuid .. | .endReadResult uuid .. | .endWriteResult uuid ..
  | .lockInfo uuid .. | .lsResult uuid _ | .error uuid _ | .ok uuid => uuid

namespace Broker

/-- What was sent stays sent, and the same clients are registered. -/
structure Goes (b b' : Broker) : Prop where
  sent : b.sent <:+ b'.sent
  clients : ∀ c : ClientId, c ∈ b'.clients ↔ c ∈ b.clients

variable {env : Env} {b b' b'' : Broker}

namespace Goes

theorem refl : b.Goes b := ⟨List.suffix_rfl, fun _ => .rfl⟩

theorem trans (h : b.Goes b') (h' : b'.Goes b'') : b.Goes b'' :=
  ⟨h.sent.trans h'.sent, fun c => (h'.clients c).trans (h.clients c)⟩

theorem contains (h : b.Goes b') (c : ClientId) : b'.clients.contains c = b.clients.contains c := by
  rw [Bool.eq_iff_iff, Std.ExtTreeMap.contains_iff_mem, Std.ExtTreeMap.contains_iff_mem]
  exact h.clients c

/-- Nothing was sent, nobody's handle changed. -/
theorem of_eq (hs : b'.sent = b.sent) (hc : b'.clients = b.clients) : b.Goes b' :=
  ⟨hs ▸ List.suffix_rfl, fun _ => by rw [hc]⟩

theorem foldl {β : Type} {f : Broker → β → Broker} (hf : ∀ (b : Broker) (x : β), b.Goes (f b x)) :
    ∀ (xs : List β) (b : Broker), b.Goes (xs.foldl f b)
  | [], _ => refl
  | x :: xs, b => (hf b x).trans (foldl hf xs (f b x))

theorem send (client : ClientId) (r : Response) : b.Goes (b.send client r) :=
  ⟨List.suffix_cons _ _, fun _ => .rfl⟩

theorem modifyClient (client : ClientId) (f : ClientHandle → ClientHandle) : b.Goes (b.modifyClient client f) := by
  refine ⟨modifyClient_sent b client f ▸ List.suffix_rfl, fun c => ?_⟩
  unfold Broker.modifyClient
  split
  · exact .rfl
  · rename_i handle h
    have hmem : client ∈ b.clients := OrdMap.mem_iff_get.2 ⟨handle, h⟩
    simp only [setClient, Std.ExtTreeMap.mem_insert, compare_eq_iff_eq]
    constructor
    · intro hc
      rcases hc with rfl | hc
      · exact hmem
      · exact hc
    · exact .inr

theorem maybeMarkIdle (key : String) : b.Goes (b.maybeMarkIdle env key) :=
  of_eq (maybeMarkIdle_sent env b key) (maybeMarkIdle_clients env b key)

theorem lockOrDefault (key : String) : b.Goes (b.lockOrDefault env key).1 :=
  of_eq (lockOrDefault_sent env b key) (lockOrDefault_clients env b key)

theorem scheduleDeadline (ttl : Option Duration) (u : String) (keys : List String) (kind : RwHoldKind)
    (client : ClientId) : b.Goes (b.scheduleDeadline env ttl u keys kind client) := by
  refine of_eq ?_ ?_ <;> simp

theorem unwrapOrNewV4 (given : Option String) : b.Goes (b.unwrapOrNewV4 env given).1 := by
  refine of_eq ?_ ?_ <;> simp

theorem putGrant (l : LockState) (g : Grant) : b.Goes (b.putGrant l g) := by
  refine of_eq ?_ ?_ <;> simp

theorem setLock (key : String) (l : LockState) : b.Goes (b.setLock key l) := of_eq rfl rfl

end Goes

/-! ## The cascade -/

theorem takeMember_goes (key : String) (l : LockState) (p : PendingRequest) (c : Composite) :
    b.Goes (b.takeMember key l p c).1 := by
  unfold takeMember
  exact ((Goes.putGrant _ _).trans (.modifyClient _ _)).trans (.modifyClient _ _)

theorem grantMemberHead_goes (key : String) (l : LockState) (p : PendingRequest) (c : Composite) :
    b.Goes (b.grantMemberHead env key l p c).1 := by
  unfold grantMemberHead
  dsimp only
  split
  · exact ((takeMember_goes key l p c).trans (.scheduleDeadline _ _ _ _ _)).trans (.send _ _)
  · exact (((takeMember_goes key l p c).trans (.lockOrDefault _)).trans (.setLock _ _)).trans (.modifyClient _ _)

theorem grantHead_goes (key : String) (l : LockState) (p : PendingRequest) :
    b.Goes (b.grantHead env key l p).1 := by
  unfold grantHead
  split
  · exact (((((Goes.unwrapOrNewV4 _).trans (.putGrant _ _)).trans (.modifyClient _ _)).trans
      (.modifyClient _ _)).trans (.scheduleDeadline _ _ _ _ _)).trans (.send _ _)
  · exact ((((Goes.unwrapOrNewV4 _).trans (.putGrant _ _)).trans (.modifyClient _ _)).trans
      (.modifyClient _ _)).trans (.send _ _)
  · exact ((((Goes.unwrapOrNewV4 _).trans (.putGrant _ _)).trans (.modifyClient _ _)).trans
      (.modifyClient _ _)).trans (.send _ _)
  · exact grantMemberHead_goes _ _ _ _

theorem tryGrantNext_goes (key : String) : b.Goes (b.tryGrantNext env key) :=
  tryGrantLoop_inv (fun _ _ h => h.trans (.maybeMarkIdle _)) (fun _ _ _ _ h _ => h.trans (grantHead_goes _ _ _)) _ b
    key .refl

theorem tryGrantAll_goes (keys : List String) : b.Goes (b.tryGrantAll env keys) :=
  .foldl (fun _ key => tryGrantNext_goes key) keys b

/-! ## Handlers -/

/-- On the way from `b` to `b'` the client was sent a response under `uuid`,
and it was delivered if the client was registered. -/
def Replies (client : ClientId) (uuid : String) (b b' : Broker) : Prop :=
  ∃ s new, b'.sent = new ++ b.sent ∧ s ∈ new ∧ s.client = client ∧ s.delivered = b.clients.contains client ∧
    s.response.correlationUuid = uuid

variable {client : ClientId} {uuid : String}

/-- The send itself, with a stretch before it and one after it. -/
theorem Goes.replies {r : Response} (h : b.Goes b') (hr : r.correlationUuid = uuid)
    (h' : (b'.send client r).Goes b'') : b.Replies client uuid b'' := by
  obtain ⟨before, hbefore⟩ := h.sent
  obtain ⟨after, hafter⟩ := h'.sent
  let s : Sent := ⟨client, r, b'.clients.contains client, b'.locks⟩
  refine ⟨s, after ++ s :: before, ?_, ?_, rfl, ?_, hr⟩
  · rw [← hafter, send_sent, ← hbefore]
    simp [s]
  · simp
  · exact h.contains client

/-- The send comes last. -/
theorem Goes.sends {r : Response} (h : b.Goes b') (hr : r.correlationUuid = uuid) :
    b.Replies client uuid (b'.send client r) :=
  h.replies hr .refl

/-- A stretch before the reply. -/
theorem Goes.then (h : b.Goes b') (hr : b'.Replies client uuid b'') : b.Replies client uuid b'' := by
  obtain ⟨before, hbefore⟩ := h.sent
  obtain ⟨s, new, hnew, hs, hclient, hdelivered, huuid⟩ := hr
  refine ⟨s, new ++ before, ?_, List.mem_append_left _ hs, hclient, hdelivered.trans ?_, huuid⟩
  · rw [hnew, ← hbefore, List.append_assoc]
  · exact h.contains client

theorem resolveMax_goes (currentMax : Nat) (max : Option Nat) : b.Goes (b.resolveMax currentMax max).1 := by
  refine .of_eq ?_ ?_ <;> simp

theorem handleExclusiveLock_replies (key : String) (pid : Option Int) (ttl : Option Duration) (max : Option Nat)
    (keep force wait : Bool) (overrides : GrantOverrides) :
    b.Replies client uuid (b.handleExclusiveLock env client uuid key pid ttl max keep force wait overrides) := by
  unfold handleExclusiveLock
  dsimp only
  have hentry : ∀ l, b.Goes
      ((((b.resolveMax ((b.locks[key]?.map (·.max)).getD b.config.maxLockHolders) max).1).lockOrDefault env key).1.setLock
        key l) :=
    fun l => ((resolveMax_goes _ _).trans (.lockOrDefault _)).trans (.setLock _ _)
  split
  · refine Goes.sends ?_ rfl
    exact ((((hentry _).trans (.unwrapOrNewV4 _)).trans (.putGrant _ _)).trans (.maybeMarkIdle _)).trans
      ((Goes.modifyClient _ _).trans (.scheduleDeadline _ _ _ _ _))
  · split
    · exact (hentry _).sends rfl
    · refine Goes.sends ?_ rfl
      exact (((hentry _).trans (.setLock _ _)).trans (.maybeMarkIdle _)).trans (.modifyClient _ _)

theorem grantMembers_goes (env : Env) (client : ClientId) (uuid : String) (pid : Option Int) (lockUuid : String) (overrides : GrantOverrides) (keys : List String)
    (i : Nat) (acc : MemberGrants) :
    acc.broker.Goes (grantMembers env client uuid pid lockUuid overrides keys i acc).broker := by
  induction keys generalizing i acc with
  | nil => exact .refl
  | cons k keys ih =>
    have hentry : acc.broker.Goes (acc.broker.lockOrDefault env k).1 := .lockOrDefault k
    rw [grantMembers]
    refine Goes.trans ?_ (ih (i + 1) _)
    exact hentry.trans (.setLock k _)

theorem grantCompositeNow_replies (keys : List String) (pid : Option Int) (ttl : Option Duration) (lockUuid : String)
    (overrides : GrantOverrides) :
    b.Replies client uuid (b.grantCompositeNow env client uuid keys pid ttl lockUuid overrides) := by
  have hmembers := grantMembers_goes env client uuid pid lockUuid overrides keys 0
    ⟨b, ∅, 0, []⟩
  unfold grantCompositeNow
  dsimp only
  refine Goes.sends ?_ rfl
  refine hmembers.trans (Goes.trans ?_ ((Goes.modifyClient _ _).trans (.scheduleDeadline _ _ _ _ _)))
  refine Goes.trans ?_ (.foldl (fun _ _ => .maybeMarkIdle _) _ _)
  exact .of_eq (by simp) (by simp)

theorem handleCompositeLock_replies (keys : List String) (pid : Option Int) (ttl : Option Duration) (wait : Bool)
    (overrides : GrantOverrides) :
    b.Replies client uuid (b.handleCompositeLock env client uuid keys pid ttl wait overrides) := by
  unfold handleCompositeLock
  split
  · exact Goes.refl.sends rfl
  · rename_i hkeys
    split
    · -- a list that is not empty has a first key left after `sort` and `dedup`
      rename_i hnil
      have hempty : keys = [] := by
        refine List.eq_nil_iff_forall_not_mem.2 fun k hk => ?_
        have := (Vec.mem_sortDedup (l := keys)).2 hk
        rw [hnil] at this
        cases this
      simp [hempty] at hkeys
    · dsimp only
      split
      · exact (Goes.unwrapOrNewV4 _).then (grantCompositeNow_replies _ pid ttl _ overrides)
      · split
        · exact (Goes.unwrapOrNewV4 _).sends rfl
        · refine Goes.replies ?_ rfl (tryGrantNext_goes _)
          exact ((((Goes.unwrapOrNewV4 _).trans (.lockOrDefault _)).trans (.setLock _ _)).trans
            (.maybeMarkIdle _)).trans (.modifyClient _ _)

theorem untrackHolders_goes (owners : List (ClientId × String)) : b.Goes (b.untrackHolders owners) :=
  .foldl (fun _ _ => .modifyClient _ _) owners b

/-- The loop of `handle_unlock` touches the table only. -/
theorem unlockKeys_goes (keys : List String) (target : Option String) (force : Bool) :
    b.Goes (b.unlockKeys env client keys target force).broker := by
  unfold unlockKeys
  refine List.foldlRecOn (motive := fun acc : Unlocking => b.Goes acc.broker) keys _ (.of_eq rfl rfl) ?_
  intro acc h key _
  unfold Unlocking.key
  split
  · exact h
  · split <;> exact h.trans (.setLock _ _)

theorem unlockRelease_goes (keys : List String) (target : Option String) (force : Bool) :
    b.Goes (b.unlockRelease env client keys target force) := by
  unfold unlockRelease
  dsimp only
  split
  · split
    · exact (unlockKeys_goes keys _ force).trans (untrackHolders_goes _)
    · exact unlockKeys_goes keys _ force
  · exact (unlockKeys_goes keys _ force).trans (untrackHolders_goes _)

theorem handleUnlock_replies (keys : List String) (lockUuid : Option String) (force : Bool) :
    b.Replies client uuid (b.handleUnlock env client uuid keys lockUuid force) := by
  unfold handleUnlock
  split
  · exact Goes.refl.sends rfl
  · split
    · exact Goes.refl.sends rfl
    · exact ((unlockRelease_goes keys lockUuid force).trans (tryGrantAll_goes keys)).sends rfl

theorem handleRegisterRead_replies (key : String) (overrides : GrantOverrides) :
    b.Replies client uuid (b.handleRegisterRead env client uuid key overrides) := by
  have hentry : b.Goes (b.lockOrDefault env key).1 := .lockOrDefault key
  unfold handleRegisterRead
  dsimp only
  split
  · refine Goes.sends ?_ rfl
    exact (((hentry.trans (.unwrapOrNewV4 _)).trans (.putGrant _ _)).trans (.maybeMarkIdle _)).trans
      (.modifyClient _ _)
  · exact (((hentry.trans (.setLock _ _)).trans (.maybeMarkIdle _)).trans (.modifyClient _ _)).sends rfl

theorem handleRegisterWrite_replies (key : String) (overrides : GrantOverrides) :
    b.Replies client uuid (b.handleRegisterWrite env client uuid key overrides) := by
  have hentry : b.Goes (b.lockOrDefault env key).1 := .lockOrDefault key
  unfold handleRegisterWrite
  dsimp only
  split
  · refine Goes.sends ?_ rfl
    exact (((hentry.trans (.unwrapOrNewV4 _)).trans (.putGrant _ _)).trans (.maybeMarkIdle _)).trans
      (.modifyClient _ _)
  · exact (((hentry.trans (.setLock _ _)).trans (.maybeMarkIdle _)).trans (.modifyClient _ _)).sends rfl

theorem handleEndRead_replies (key : String) : b.Replies client uuid (b.handleEndRead env client uuid key) := by
  unfold handleEndRead
  split
  · exact Goes.refl.sends rfl
  · rename_i l _
    have hrelease : b.Goes (b.endReadRelease env client key l) := by
      unfold endReadRelease
      refine Goes.trans ?_ (untrackHolders_goes _)
      exact .of_eq rfl rfl
    exact hrelease.replies rfl (tryGrantNext_goes key)

theorem handleEndWrite_replies {key : String} (hkey : key ∈ b.locks) :
    b.Replies client uuid (b.handleEndWrite env client uuid key) := by
  obtain ⟨l, hl⟩ := OrdMap.mem_iff_get.1 hkey
  have hrelease : b.Goes (b.endWriteRelease client key l) := by
    unfold endWriteRelease
    split
    · split
      · exact (Goes.setLock _ _).trans (.modifyClient _ _)
      · exact .refl
    · exact .refl
  unfold handleEndWrite
  rw [hl]
  exact hrelease.replies rfl (tryGrantNext_goes key)

end Broker

/-- The request does not end a write on a key the broker has no entry for. -/
def Request.EndsKnown (b : Broker) : Request → Prop
  | .endWrite _ key => key ∈ b.locks
  | _ => True

namespace Broker

theorem handleRequest_replies {env : Env} {b : Broker} {client : ClientId} (request : Request)
    (overrides : GrantOverrides) (hrequest : request.EndsKnown b) :
    b.Replies client request.uuid (b.handleRequest env client request overrides) := by
  cases request with
  | version uuid v => exact Goes.refl.sends rfl
  | auth uuid t => exact Goes.refl.sends rfl
  | lock uuid key keys pid ttl max force retry keep wait =>
    unfold handleRequest
    dsimp only
    split
    · cases keys <;> exact Goes.refl.sends rfl
    · split
      · exact handleExclusiveLock_replies _ _ _ _ _ _ _ _
      · exact handleCompositeLock_replies _ _ _ _ _
      · exact Goes.refl.sends rfl
      · exact Goes.refl.sends rfl
  | unlock uuid key keys lockUuid force =>
    cases key <;> cases keys
    · exact Goes.refl.sends rfl
    · exact handleUnlock_replies _ _ _
    · exact handleUnlock_replies _ _ _
    · exact Goes.refl.sends rfl
  | registerRead uuid key => exact handleRegisterRead_replies key overrides
  | registerWrite uuid key => exact handleRegisterWrite_replies key overrides
  | endRead uuid key => exact handleEndRead_replies key
  | endWrite uuid key => exact handleEndWrite_replies hrequest
  | lockInfo uuid key =>
    have hread : b.Goes { b with reads := b.reads + 1 } := .of_eq rfl rfl
    unfold handleRequest
    dsimp only
    split <;> exact hread.sends rfl
  | ls uuid =>
    have hread : b.Goes { b with reads := b.reads + 1 } := .of_eq rfl rfl
    exact hread.sends rfl
  | heartbeat uuid => exact Goes.refl.sends rfl

/-- Such an end of a write changes nothing, so nothing is sent. -/
theorem handleRequest_eq_self {env : Env} {b : Broker} {client : ClientId} {request : Request}
    (overrides : GrantOverrides) (hrequest : ¬request.EndsKnown b) :
    b.handleRequest env client request overrides = b := by
  cases request <;> try exact absurd trivial hrequest
  rename_i uuid key
  have hkey : b.locks[key]? = none := Std.ExtTreeMap.getElem?_eq_none hrequest
  simp [handleRequest, handleEndWrite, tryGrantNext, tryGrantLoop, tryGrantOnce, maybeMarkIdle, hkey]

end Broker

/-- **Every request is answered, with one exception**: whatever the state, the
request and its overrides, the handler sends a registered client a response
under the request's uuid before it returns exactly if the request is not the end
of a write on a key without an entry, which is passed over in silence. -/
theorem Broker.handleRequest_answered {env : Env} {b : Broker} {client : ClientId} (hclient : client ∈ b.clients)
    (request : Request) (overrides : GrantOverrides) :
    (∃ s new, (b.handleRequest env client request overrides).sent = new ++ b.sent ∧ s ∈ new ∧ s.client = client ∧
      s.delivered = true ∧ s.response.correlationUuid = request.uuid) ↔ request.EndsKnown b := by
  constructor
  · rintro ⟨s, new, hnew, hs, -⟩
    by_contra hrequest
    rw [handleRequest_eq_self overrides hrequest, List.self_eq_append_left] at hnew
    simp [hnew] at hs
  · intro hrequest
    obtain ⟨s, new, hnew, hs, hc, hd, hu⟩ := handleRequest_replies request overrides hrequest
    exact ⟨s, new, hnew, hs, hc, hd.trans (Std.ExtTreeMap.contains_iff_mem.2 hclient), hu⟩

/-- The end of a write on a key that is known. -/
theorem Broker.handleRequest_answered_end_write :
    ∃ s new, ((Sample.after [.registerClient, Sample.ask 1 (Sample.lock "r" "a")]).handleRequest Sample.env 1
        (.endWrite "s" "a") {}).sent =
          new ++ (Sample.after [.registerClient, Sample.ask 1 (Sample.lock "r" "a")]).sent ∧
      s ∈ new ∧ s.client = 1 ∧ s.delivered = true ∧ s.response.correlationUuid = "s" :=
  (Broker.handleRequest_answered (by decide +kernel) (.endWrite "s" "a") {}).2
    (by show "a" ∈ _; decide +kernel)

/-- The end of a write on a key without an entry: the client is registered,
and nothing is sent. -/
theorem Broker.handleEndWrite_silent :
    Broker.Reachable Sample.config (Sample.after [.registerClient]) ∧
    (1 : ClientId) ∈ (Sample.after [.registerClient]).clients ∧
    ¬∃ s new, ((Sample.after [.registerClient]).handleRequest Sample.env 1 (.endWrite "s" "a") {}).sent =
        new ++ (Sample.after [.registerClient]).sent ∧ s ∈ new ∧ s.client = 1 ∧
      s.response.correlationUuid = (Request.endWrite "s" "a").uuid := by
  refine ⟨Sample.reachable_after _, by decide +kernel, ?_⟩
  intro ⟨s, new, hnew, hs, _⟩
  have hlen : ((Sample.after [.registerClient]).handleRequest Sample.env 1 (.endWrite "s" "a") {}).sent.length = 0 := by
    decide +kernel
  rw [hnew, List.length_append] at hlen
  have : new = [] := List.eq_nil_of_length_eq_zero (by omega)
  rw [this] at hs
  cases hs

end LiveMutex
