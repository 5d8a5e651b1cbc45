/-
What is sent, and when: a stretch of code that sends one response (`Speaks`), and
the stretches that send nothing.
-/
import LiveMutex.RefineRelease

namespace LiveMutex

namespace Broker

/-! ## One response -/

/-- One response is sent on the way from `b` to `b'`, and it is `Q`. -/
def Speaks (Q : Response → Prop) (b b' : Broker) : Prop := ∃ s, b'.sent = s :: b.sent ∧ Q s.response

/-- A stretch that ends in a send, and sends nothing before. -/
theorem speaks_send {b b' : Broker} {client : ClientId} {r : Response} {Q : Response → Prop} (hs : b'.sent = b.sent)
    (hr : Q r) : b.Speaks Q (b'.send client r) :=
  ⟨_, by rw [send_sent, hs], hr⟩

/-- A stretch before it that sends nothing. -/
theorem Speaks.after {b b' b'' : Broker} {Q : Response → Prop} (h : b'.Speaks Q b'') (hs : b'.sent = b.sent) :
    b.Speaks Q b'' := by
  obtain ⟨s, hs', hq⟩ := h
  exact ⟨s, hs'.trans (by rw [hs]), hq⟩

/-! ## The idle stamps and the grants of a composite send nothing -/

theorem foldl_maybeMarkIdle_sent (env : Env) (keys : List String) (b : Broker) :
    (keys.foldl (fun b k => b.maybeMarkIdle env k) b).sent = b.sent :=
  List.foldlRecOn (motive := fun b' : Broker => b'.sent = b.sent) keys _ rfl fun b' h k _ =>
    (maybeMarkIdle_sent env b' k).trans h

/-- The grant loop of a composite sends nothing and collects a token for each key. -/
theorem grantMembers_spec (env : Env) (client : ClientId) (uuid : String) (pid : Option Int) (lockUuid : String)
    (overrides : GrantOverrides) (keys : List String) (i : Nat) (acc : MemberGrants) :
    (grantMembers env client uuid pid lockUuid overrides keys i acc).broker.sent = acc.broker.sent ∧
    ∀ k, k ∈ (grantMembers env client uuid pid lockUuid overrides keys i acc).tokens ↔ k ∈ acc.tokens ∨ k ∈ keys := by
  induction keys generalizing i acc with
  | nil => exact ⟨rfl, fun k => by simp [grantMembers]⟩
  | cons k₀ keys ih =>
    rw [grantMembers]
    obtain ⟨hsent, htokens⟩ := ih (i + 1) _
    refine ⟨hsent.trans (lockOrDefault_sent env acc.broker k₀), fun k => ?_⟩
    rw [htokens, Std.ExtTreeMap.mem_insert, Std.LawfulEqCmp.compare_eq_iff_eq, List.mem_cons, eq_comm,
      or_comm (a := k = k₀), or_assoc]

/-! ## A request is answered on arrival -/

section

variable {env : Env} {b : Broker} {client : ClientId} {uuid key : String} {Q : Response → Prop}

theorem handleExclusiveLock_tells {overrides : GrantOverrides}
    (hgrant : ∀ (b : Broker) (depth token : Nat), Q (.lock uuid key true depth
      (some (b.unwrapOrNewV4 env overrides.lockUuid).2) (some token) (some 0) none))
    (hwait : ∀ depth, Q (.lock uuid key false depth none none (some 0) none)) (pid : Option Int)
    (ttl : Option Duration) (max : Option Nat) (keep force wait : Bool) :
    b.Speaks Q (b.handleExclusiveLock env client uuid key pid ttl max keep force wait overrides) := by
  unfold handleExclusiveLock
  dsimp only
  split
  · refine speaks_send ?_ (hgrant ..)
    simp only [scheduleDeadline_sent, trackHolder, modifyClient_sent, maybeMarkIdle_sent, putGrant_sent,
      unwrapOrNewV4_sent, setLock_sent, lockOrDefault_sent, resolveMax_sent]
  · split
    · refine speaks_send ?_ (hwait _)
      simp only [setLock_sent, lockOrDefault_sent, resolveMax_sent]
    · refine speaks_send ?_ (hwait _)
      simp only [trackPending, modifyClient_sent, maybeMarkIdle_sent, setLock_sent, lockOrDefault_sent,
        resolveMax_sent]

theorem handleRegisterRead_tells (hreply : ∀ readers writer granted lockUuid token,
      Q (.registerReadResult uuid key readers writer granted lockUuid token)) (overrides : GrantOverrides) :
    b.Speaks Q (b.handleRegisterRead env client uuid key overrides) := by
  unfold handleRegisterRead
  dsimp only
  split
  · refine speaks_send ?_ (hreply ..)
    simp only [trackHolder, modifyClient_sent, maybeMarkIdle_sent, putGrant_sent, unwrapOrNewV4_sent,
      lockOrDefault_sent]
  · refine speaks_send ?_ (hreply ..)
    simp only [queueRw, trackPending, modifyClient_sent, maybeMarkIdle_sent, setLock_sent, lockOrDefault_sent]

theorem handleRegisterWrite_tells (hreply : ∀ readers writer granted lockUuid token,
      Q (.registerWriteResult uuid key readers writer granted lockUuid token)) (overrides : GrantOverrides) :
    b.Speaks Q (b.handleRegisterWrite env client uuid key overrides) := by
  unfold handleRegisterWrite
  dsimp only
  split
  · refine speaks_send ?_ (hreply ..)
    simp only [trackHolder, modifyClient_sent, maybeMarkIdle_sent, putGrant_sent, unwrapOrNewV4_sent,
      lockOrDefault_sent]
  · refine speaks_send ?_ (hreply ..)
    simp only [queueRw, trackPending, modifyClient_sent, maybeMarkIdle_sent, setLock_sent, lockOrDefault_sent]

theorem grantCompositeNow_tells {keys : List String} {lockUuid : String}
    (hgrant : ∀ tokens : OrdMap String Nat, (∀ k, k ∈ tokens ↔ k ∈ keys) →
      Q (.compositeLock uuid keys true (some lockUuid) (some tokens) none)) (pid : Option Int)
    (ttl : Option Duration) (overrides : GrantOverrides) :
    b.Speaks Q (b.grantCompositeNow env client uuid keys pid ttl lockUuid overrides) := by
  have hspec := grantMembers_spec env client uuid pid lockUuid overrides keys 0 ⟨b, ∅, 0, []⟩
  unfold grantCompositeNow
  dsimp only
  refine speaks_send ?_ (hgrant _ fun k => ?_)
  · simp only [scheduleDeadline_sent, trackHolder, modifyClient_sent, foldl_maybeMarkIdle_sent, recordGrants_sent,
      observeFencingToken_sent, hspec.1]
  · rw [hspec.2 k]
    simp

end

/-! ## Releases send nothing -/

section

variable {env : Env} {b : Broker} {client : ClientId} {key : String}

theorem untrackHolders_sent (owners : List (ClientId × String)) : (b.untrackHolders owners).sent = b.sent :=
  List.foldlRecOn (motive := fun b' : Broker => b'.sent = b.sent) owners _ rfl fun b' h _ _ =>
    (modifyClient_sent b' _ _).trans h

theorem unlockKeys_sent (keys : List String) (target : Option String) (force : Bool) :
    (b.unlockKeys env client keys target force).broker.sent = b.sent := by
  unfold unlockKeys
  refine List.foldlRecOn (motive := fun acc : Unlocking => acc.broker.sent = b.sent) keys _ rfl ?_
  intro acc h key _
  unfold Unlocking.key
  split
  · exact h
  · split <;> exact h

theorem unlockRelease_sent (keys : List String) (target : Option String) (force : Bool) :
    (b.unlockRelease env client keys target force).sent = b.sent := by
  unfold unlockRelease
  dsimp only
  split
  · split
    · rw [untrackHolders_sent, unlockKeys_sent]
    · exact unlockKeys_sent keys _ force
  · rw [untrackHolders_sent, unlockKeys_sent]

theorem endReadRelease_sent (l : LockState) : (b.endReadRelease env client key l).sent = b.sent :=
  untrackHolders_sent _

theorem endWriteRelease_sent (l : LockState) : (b.endWriteRelease client key l).sent = b.sent := by
  unfold endWriteRelease
  split
  · split
    · exact modifyClient_sent _ _ _
    · rfl
  · rfl

theorem modifyLock_sent (f : LockState → LockState) : (b.modifyLock key f).sent = b.sent := by
  unfold modifyLock
  split <;> rfl

/-- A walk over a list each step of which sends nothing. -/
theorem foldl_dropping_sent {β : Type} {f : Dropping → β → Dropping}
    (hf : ∀ d x, (f d x).broker.sent = d.broker.sent) (xs : List β) (d : Dropping) :
    (xs.foldl f d).broker.sent = d.broker.sent :=
  List.foldlRecOn (motive := fun d' : Dropping => d'.broker.sent = d.broker.sent) xs _ rfl fun d' h x _ =>
    (hf d' x).trans h

theorem releaseHeld_sent (u : String) (kind : RwHoldKind) (d : Dropping) (key : String) :
    (Dropping.releaseHeld u kind d key).broker.sent = d.broker.sent := by
  unfold Dropping.releaseHeld
  split
  · rfl
  · split <;> rfl

theorem dropRegistered_sent (handle : ClientHandle) : (b.dropRegistered env client handle).broker.sent = b.sent := by
  unfold dropRegistered
  dsimp only
  refine (foldl_dropping_sent (fun d (e : String × KeysOfLock) =>
    foldl_dropping_sent (releaseHeld_sent e.1 e.2.rwKind) e.2.keys d) _ _).trans ?_
  rw [foldl_dropping_sent fun d p => modifyLock_sent _]

theorem dropUnregistered_sent : (b.dropUnregistered env client).broker.sent = b.sent := by
  unfold dropUnregistered
  dsimp only
  rw [foldl_dropping_sent fun d p => modifyLock_sent _, foldl_dropping_sent fun d p => modifyLock_sent _,
    foldl_dropping_sent fun d p => modifyLock_sent _, foldl_dropping_sent fun d p => modifyLock_sent _]

theorem expire_sent (s : Sweeping) (key : DeadlineKey) : (s.expire key).broker.sent = s.broker.sent := by
  unfold Sweeping.expire
  split
  · rfl
  · dsimp only
    split
    · exact (modifyClient_sent _ _ _).trans (foldl_dropping_sent (fun d k => modifyLock_sent _) _ _)
    · rfl

theorem sweep_sent (now : Instant) : (b.sweep now).broker.sent = b.sent :=
  List.foldlRecOn (motive := fun s : Sweeping => s.broker.sent = b.sent) _ _ rfl fun s h key _ =>
    (expire_sent s key).trans h

theorem prune_sent (now : Instant) : (b.prune env now).sent = b.sent := by
  unfold prune
  split
  · rfl
  · split <;> rfl

theorem detachLockOwner_sent (lockUuid : String) : (b.detachLockOwner lockUuid).sent = b.sent := by
  unfold detachLockOwner
  refine List.foldlRecOn (motive := fun b' : Broker => b'.sent = b.sent) _ _ rfl fun b' h client _ => ?_
  rw [detachFrom_eq]
  exact h

end

end Broker

end LiveMutex
