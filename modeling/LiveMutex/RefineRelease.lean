/-
Everything that takes holders or waiters away as runs of the lock table
machine: unlock, end of read and write, the drop of a client, the TTL sweep.
Each first releases (`Releases`), then wakes the waiters of the keys it
touched (`Cascade`); the sweep ends by reclaiming idle keys (`Prunes`).
-/
import LiveMutex.RefineOps

namespace LiveMutex

namespace LockState

/-- Take these holders away, one after the other. -/
def removeAll (l : LockState) (us : List (String × RwHoldKind)) : LockState :=
  us.foldl (fun l u => l.removeForKind u.1 u.2) l

theorem removeForKind_write {l : LockState} {u : String} (h : l.writer.any fun w => w.lockUuid = u) :
    l.removeForKind u .write = l.clearWriter := if_pos h

theorem writerOwner_any {l : LockState} {u : String} (canUnlock : ClientId → Bool)
    (h : (l.writerOwner u).any canUnlock = true) : (l.writer.any fun w => w.lockUuid = u) = true := by
  unfold writerOwner at h
  split at h
  · cases h
  · rename_i w hw
    split at h
    · rename_i hu; simp [hw, hu]
    · cases h

end LockState

theorem Released.when_lock (r : Released) (canUnlock : ClientId → Bool) (owner : Option ClientId)
    (drop : LockState → LockState) :
    (r.when canUnlock owner drop).lock = if owner.any canUnlock then drop r.lock else r.lock := by
  unfold Released.when
  split
  · rfl
  · rename_i c
    simp only [Option.any_some]
    split <;> rfl

namespace LockState

/-- A targeted unlock takes away the holders of the target, of each kind, whose
owner it may unlock. -/
theorem unlockTarget_lock (l : LockState) (canUnlock : ClientId → Bool) (target : String) :
    (l.unlockTarget canUnlock target).lock = l.removeAll
      ((if (l.exclusiveHolders[target]?.map (·.client)).any canUnlock then [(target, .exclusive)] else []) ++
       (if (l.readers[target]?.map (·.client)).any canUnlock then [(target, .read)] else []) ++
       (if (l.writerOwner target).any canUnlock then [(target, .write)] else [])) := by
  unfold unlockTarget
  simp only [Released.when_lock, removeAll, List.foldl_append]
  have hw := writerOwner_any (l := l) (u := target) canUnlock
  split_ifs with h1 h2 h3 <;>
    simp_all [removeForKind, removeExclusive, removeReader]

end LockState

namespace Broker

variable {env : Env} {given : Option String} {b b' : Broker} {key : String} {l : LockState}
  {taken : String → String → Prop}

theorem setLock_setLock (b : Broker) (key : String) (l₁ l₂ : LockState) :
    (b.setLock key l₁).setLock key l₂ = b.setLock key l₂ := by
  simp only [setLock, OrdMap.insert_insert]

theorem setLock_get (h : b.locks[key]? = some l) : b.setLock key l = b := by
  simp only [setLock, OrdMap.insert_get h]

theorem removeAll_does (us : List (String × RwHoldKind)) (h : b.locks[key]? = some l) :
    b.Does env given (Action.Releases taken) (b.setLock key (l.removeAll us)) := by
  induction us generalizing b l with
  | nil => rw [LockState.removeAll, List.foldl_nil, setLock_get h]; exact .refl
  | cons u us ih =>
    have hfirst : b.Does env given (Action.Releases taken) (b.setLock key (l.removeForKind u.1 u.2)) :=
      .setLock (.release h) trivial trivial rfl
    have hrest := ih (b := b.setLock key (l.removeForKind u.1 u.2)) (l := l.removeForKind u.1 u.2) (by simp)
    rw [setLock_setLock] at hrest
    exact hfirst.trans hrest

theorem unlockKey_does (order : List String → List String) (canUnlock : ClientId → Bool)
    (target : Option String) (acc : Unlocking) (key : String) :
    acc.broker.Does env given (Action.Releases taken) (Unlocking.key order canUnlock target acc key).broker := by
  unfold Unlocking.key
  split
  · exact .refl
  · rename_i l hl
    split
    · rename_i target
      simp only [l.unlockTarget_lock canUnlock target]
      exact removeAll_does _ hl
    · exact .setLock (.wipe hl) trivial trivial rfl

theorem unlockKeys_does (client : ClientId) (keys : List String) (target : Option String) (force : Bool) :
    b.Does env given (Action.Releases taken) (b.unlockKeys env client keys target force).broker := by
  have hfold : ∀ (keys : List String) (acc : Unlocking), acc.broker.Does env given (Action.Releases taken)
      (keys.foldl (Unlocking.key (env.order b.reads) (b.canUnlockTarget client force) target) acc).broker := by
    intro keys
    induction keys with
    | nil => exact fun acc => .refl
    | cons k keys ih => exact fun acc => (unlockKey_does _ _ target acc k).trans (ih _)
  exact Does.reading.trans (hfold keys { broker := { b with reads := b.reads + 1 } })

theorem untrackHolders_same (owners : List (ClientId × String)) (b : Broker) :
    b.untrackHolders owners = { b with clients := (b.untrackHolders owners).clients } := by
  induction owners generalizing b with
  | nil => rfl
  | cons o owners ih =>
    unfold untrackHolders at ih ⊢
    rw [List.foldl_cons, ih, untrackHolder, modifyClient_eq]

theorem unlockRelease_does (client : ClientId) (keys : List String) (target : Option String) (force : Bool) :
    b.Does env given (Action.Releases taken) (b.unlockRelease env client keys target force) := by
  have h : b.Does env given (Action.Releases taken) (b.unlockKeys env client keys target force).broker :=
    unlockKeys_does client keys target force
  unfold unlockRelease
  dsimp only
  split
  · split
    · rw [untrackHolders_same]; exact h.after rfl rfl le_rfl rfl rfl
    · exact h
  · rw [untrackHolders_same]; exact h.after rfl rfl le_rfl rfl rfl

/-- Releases, then the waking of waiters. -/
def Wakes (taken : String → String → Prop) (a : Action) : Prop := a.Releases taken ∨ a.Cascade

/-- A release, the answer, and the waking of one key. -/
theorem Does.wake (h : b.Does env given (Action.Releases taken) b') (client : ClientId) (r : Response) (key : String) :
    b.Does env given (Wakes taken) ((b'.send client r).tryGrantNext env key) :=
  have hsent : b.Does env given (Action.Releases taken) (b'.send client r) := h.after rfl rfl le_rfl rfl rfl
  (hsent.mono fun _ h => .inl h).trans ((tryGrantNext_does env _ key).mono fun _ h => .inr h)

theorem handleUnlock_does (client : ClientId) (uuid : String) (keys : List String) (lockUuid : Option String)
    (force : Bool) : b.Does env given (Wakes taken) (b.handleUnlock env client uuid keys lockUuid force) := by
  unfold handleUnlock
  split
  · exact .same rfl rfl le_rfl rfl rfl
  · split
    · exact .same rfl rfl le_rfl rfl rfl
    · exact (((unlockRelease_does client keys lockUuid force).mono fun _ h => .inl h).trans
        ((tryGrantAll_does env _ keys).mono fun _ h => .inr h)).after rfl rfl le_rfl rfl rfl

theorem endReadRelease_does (client : ClientId) (h : b.locks[key]? = some l) :
    b.Does env given (Action.Releases taken) (b.endReadRelease env client key l) := by
  unfold endReadRelease
  dsimp only
  generalize ((env.order b.reads l.readers.keys).filter fun u => l.readers[u]?.any fun h => h.client = client) = us
  rw [untrackHolders_same]
  have hfold : ∀ (us : List String) (l : LockState),
      { l with readers := us.foldl (fun m u => m.erase u) l.readers } =
        l.removeAll (us.map fun u => (u, .read)) := by
    intro us
    induction us with
    | nil => exact fun l => rfl
    | cons u us ih => exact fun l => ih (l.removeReader u)
  rw [hfold]
  exact (removeAll_does _ h).after rfl rfl (Nat.le_succ _) rfl rfl

theorem handleEndRead_does (client : ClientId) (uuid key : String) :
    b.Does env given (Wakes taken) (b.handleEndRead env client uuid key) := by
  unfold handleEndRead
  split
  · exact .same rfl rfl le_rfl rfl rfl
  · rename_i l hl
    exact (endReadRelease_does client hl).wake client _ key

theorem endWriteRelease_does (client : ClientId) (h : b.locks[key]? = some l) :
    b.Does env given (Action.Releases taken) (b.endWriteRelease client key l) := by
  unfold endWriteRelease
  split
  · rename_i w hw
    split
    · have hr : l.clearWriter = l.removeAll [(w.lockUuid, .write)] := by
        simp [LockState.removeAll, LockState.removeForKind, hw]
      rw [hr, untrackHolder, modifyClient_eq]
      exact (removeAll_does _ h).after rfl rfl le_rfl rfl rfl
    · exact .refl
  · exact .refl

theorem handleEndWrite_does (client : ClientId) (uuid key : String) :
    b.Does env given (Wakes taken) (b.handleEndWrite env client uuid key) := by
  unfold handleEndWrite
  split
  · exact (tryGrantNext_does env _ key).mono fun _ h => .inr h
  · rename_i l hl
    exact (endWriteRelease_does client hl).wake client _ key

/-! ## Dropping a client -/

theorem modifyLock_does {ok : Action → Prop} {f : LockState → LockState}
    (h : ∀ l, b.locks[key]? = some l → b.Does env given ok (b.setLock key (f l))) :
    b.Does env given ok (b.modifyLock key f) := by
  unfold modifyLock
  split
  · exact .refl
  · rename_i l hl
    exact h l hl

theorem removeForKind_does (u : String) (kind : RwHoldKind) (h : b.locks[key]? = some l) :
    b.Does env given (Action.Releases taken) (b.setLock key (l.removeForKind u kind)) :=
  .setLock (.release h) trivial trivial rfl

theorem clearWriter_does (h : b.locks[key]? = some l) :
    b.Does env given (Action.Releases taken) (b.setLock key l.clearWriter) := by
  cases hw : l.writer with
  | none =>
    have hl : l.clearWriter = l := by cases l; cases hw; rfl
    rw [hl, setLock_get h]
    exact .refl
  | some w =>
    rw [← LockState.removeForKind_write (u := w.lockUuid) (by simp [hw])]
    exact removeForKind_does _ _ h

/-- A fold over a release in progress is a run when each of its steps is. -/
theorem Does.foldl_dropping {β : Type} {f : Dropping → β → Dropping}
    (xs : List β) (hf : ∀ x ∈ xs, ∀ d : Dropping, d.broker.Does env given (Action.Releases taken) (f d x).broker)
    (d : Dropping) : d.broker.Does env given (Action.Releases taken) (xs.foldl f d).broker :=
  List.foldlRecOn (motive := fun d' => d.broker.Does env given (Action.Releases taken) d'.broker) xs f .refl
    fun d' h x hx => h.trans (hf x hx d')

theorem withdraw_does (d : Dropping) {x key : String} (ht : taken key x) :
    d.broker.Does env given (Action.Releases taken) (d.touch (·.removeWaiter x) key).broker :=
  modifyLock_does fun _ h => .setLock (.withdraw h) ht trivial rfl

theorem touch_removeForKind_does (d : Dropping) (u : String) (kind : RwHoldKind) (key : String) :
    d.broker.Does env given (Action.Releases taken) (d.touch (·.removeForKind u kind) key).broker :=
  modifyLock_does fun _ h => removeForKind_does u kind h

theorem releaseHeld_does (u : String) (kind : RwHoldKind) (d : Dropping) (key : String) :
    d.broker.Does env given (Action.Releases taken) (Dropping.releaseHeld u kind d key).broker := by
  unfold Dropping.releaseHeld
  split
  · exact .refl
  · rename_i l hl
    split
    · exact .refl
    · exact removeForKind_does u kind hl

theorem mem_hashIter {β : Type} (n : Nat) (m : OrdMap String β) (e : String × β) :
    e ∈ hashIter (env.order n) m ↔ m[e.1]? = some e.2 := by
  simp only [hashIter, List.mem_filterMap, (env.order_perm _ _).mem_iff, Std.ExtTreeMap.mem_keys,
    Option.map_eq_some_iff]
  constructor
  · rintro ⟨k, _, v, hv, rfl⟩
    exact hv
  · intro h
    exact ⟨e.1, OrdMap.mem_iff_get.2 ⟨_, h⟩, e.2, h, rfl⟩

/-- The waiters that go with a client: those its handle notes, and its own if it has no handle. -/
def dropsWaiter (b : Broker) (client : ClientId) (key x : String) : Prop :=
  match b.clients[client]? with
  | some handle => (key, x) ∈ handle.pendingRequestUuids
  | none => ∃ l p, b.locks[key]? = some l ∧ (x, p) ∈ l.queue.entries ∧ p.client = client

theorem dropRegistered_does {client : ClientId} {handle : ClientHandle} (hc : b.clients[client]? = some handle) :
    b.Does env given (Action.Releases (b.dropsWaiter client)) (b.dropRegistered env client handle).broker := by
  unfold dropRegistered
  dsimp only
  refine Does.trans ?_ (Does.foldl_dropping _ (fun (e : String × KeysOfLock) _ =>
    Does.foldl_dropping e.2.keys fun k _ d => releaseHeld_does e.1 e.2.rwKind d k) _)
  refine Does.trans ?_ (Does.foldl_dropping _ (fun (p : String × String) hp d => withdraw_does d ?_) _)
  · exact .same rfl rfl (Nat.le_succ _) rfl rfl
  · rwa [dropsWaiter, hc]

theorem dropUnregistered_does {client : ClientId} (hc : b.clients[client]? = none) :
    b.Does env given (Action.Releases (b.dropsWaiter client)) (b.dropUnregistered env client).broker := by
  unfold dropUnregistered
  dsimp only
  refine Does.trans ?_ (Does.foldl_dropping _ (fun key _ d => modifyLock_does fun _ => clearWriter_does) _)
  refine Does.trans ?_ (Does.foldl_dropping _ (fun (p : String × String) _ d =>
    touch_removeForKind_does d p.2 .read p.1) _)
  refine Does.trans ?_ (Does.foldl_dropping _ (fun (p : String × String) _ d =>
    touch_removeForKind_does d p.2 .exclusive p.1) _)
  refine Does.trans ?_ (Does.foldl_dropping _ (fun (p : String × String) hp d => withdraw_does d ?_) _)
  · exact .same rfl rfl (Nat.le_succ _) rfl rfl
  · simp only [List.mem_flatMap, List.mem_map, List.mem_filter, decide_eq_true_eq] at hp
    obtain ⟨kl, hkl, e, ⟨he, hclient⟩, rfl⟩ := hp
    rw [dropsWaiter, hc]
    exact ⟨kl.2, e.2, (mem_hashIter _ _ _).1 hkl, he, hclient⟩

theorem wakeTouched_does {ok : Action → Prop} (d : Dropping) {wake : Broker → String → Broker}
    (hw : ∀ (b : Broker) (key : String), b.Does env given ok (wake b key)) :
    d.broker.Does env given ok (wakeTouched env d wake) :=
  Does.reading.trans (.foldl hw _ _)

theorem dropClient_does (client : ClientId) :
    b.Does env given (Wakes (b.dropsWaiter client)) (b.dropClient env client) := by
  unfold dropClient
  split
  · rename_i hc
    refine ((dropUnregistered_does hc).mono fun _ h => .inl h).trans (wakeTouched_does _ fun b key => ?_)
    exact ((maybeMarkIdle_does env b key fun _ => trivial).trans (tryGrantNext_does env _ key)).mono
      fun _ h => .inr h
  · rename_i handle hc
    refine ((dropRegistered_does hc).mono fun _ h => .inl h).trans
      (wakeTouched_does _ fun b key => ?_)
    exact (tryGrantNext_does env b key).mono fun _ h => .inr h

/-! ## Detaching -/

theorem detachFrom_eq (lockUuid : String) (b : Broker) (client : ClientId) :
    detachFrom lockUuid b client = { b with clients := (detachFrom lockUuid b client).clients } := by
  unfold detachFrom
  split
  · rfl
  · split
    · rfl
    · dsimp only
      split <;> rfl

theorem detachLockOwner_does (lockUuid : String) :
    b.Does env given Action.Detaches (b.detachLockOwner lockUuid) := by
  unfold detachLockOwner
  dsimp only
  have hdetach : b.Does env given Action.Detaches
      { b with locks := b.locks.map fun _ l => l.detachOwner lockUuid } :=
    .single (.detach _ lockUuid) trivial trivial rfl le_rfl rfl rfl
  refine hdetach.trans (.foldl (fun b client => ?_) _ _)
  · rw [detachFrom_eq]
    exact .same rfl rfl le_rfl rfl rfl

/-! ## The TTL sweep -/

theorem evict_does (d : Dropping) (entry : DeadlineEntry) :
    d.broker.Does env given (Action.Releases taken) (d.evict entry).broker :=
  Does.foldl_dropping entry.keys (fun k _ d => touch_removeForKind_does d entry.lockUuid entry.kind k) d

theorem expire_does (s : Sweeping) (key : DeadlineKey) :
    s.broker.Does env given (Action.Releases taken) (s.expire key).broker := by
  unfold Sweeping.expire
  split
  · exact .refl
  · rename_i entry _
    dsimp only
    split
    · have hb : s.broker.Does env given (Action.Releases taken)
          { s.broker with deadlines := s.broker.deadlines.erase key } := .same rfl rfl le_rfl rfl rfl
      have hd := hb.trans (evict_does ⟨_, s.touchedKeys⟩ entry)
      refine hd.after ?_ ?_ ?_ ?_ ?_
      · exact modifyClient_locks ..
      · exact modifyClient_config ..
      · exact (modifyClient_reads ..).ge
      · exact modifyClient_grants ..
      · exact modifyClient_fencingWatermark ..
    · exact .same rfl rfl le_rfl rfl rfl

theorem sweep_does (now : Instant) : b.Does env given (Action.Releases taken) (b.sweep now).broker := by
  unfold sweep
  have hfold : ∀ (ks : List DeadlineKey) (s : Sweeping),
      s.broker.Does env given (Action.Releases taken) (ks.foldl Sweeping.expire s).broker := by
    intro ks
    induction ks with
    | nil => exact fun s => .refl
    | cons k ks ih => exact fun s => (expire_does s k).trans (ih _)
  exact hfold _ ⟨⟨b, []⟩, 0⟩

/-- Reclaiming idle keys one after the other. -/
theorem eraseAll_trace {cfg : BrokerConfig} {floor : Nat} : ∀ (gone : List String) (t : LockTable), gone.Nodup →
    (∀ k ∈ gone, ∃ l : LockState, t[k]? = some l ∧ l.isIdle = true) →
    Trace (Step cfg floor) t (gone.map .prune) (gone.foldl (fun m k => m.erase k) t)
  | [], t, _, _ => .nil t
  | k :: gone, t, hnd, hidle => by
    obtain ⟨hk, hnd⟩ := List.nodup_cons.1 hnd
    obtain ⟨l, hl, hi⟩ := hidle k (by simp)
    refine .cons (.prune hl hi) (eraseAll_trace gone _ hnd fun k' hk' => ?_)
    obtain ⟨l', hl', hi'⟩ := hidle k' (by simp [hk'])
    have hne : k ≠ k' := fun h => hk (h ▸ hk')
    exact ⟨l', (OrdMap.get_erase_ne _ hne).trans hl', hi'⟩

theorem prune_does (now : Instant) : b.Does env given Action.Prunes (b.prune env now) := by
  unfold prune
  split
  · exact .refl
  · split
    · exact .refl
    · rename_i cutoff _
      have hnd : (b.pruneKeys cutoff).Nodup := b.locks.nodup_keys.filter _
      have hidle : ∀ k ∈ b.pruneKeys cutoff, ∃ l : LockState, b.locks[k]? = some l ∧ l.isIdle = true := by
        intro k hk
        have := (List.mem_filter.1 hk).2
        rw [Option.any_eq_true] at this
        obtain ⟨l, hl, h⟩ := this
        exact ⟨l, hl, (Bool.and_eq_true_iff.1 h).2⟩
      have hgrants : ((b.pruneKeys cutoff).map Action.prune).flatMap Action.grants = [] := by
        simp [List.flatMap_eq_nil_iff, Action.grants]
      refine ⟨rfl, le_rfl, (b.pruneKeys cutoff).map .prune, eraseAll_trace _ _ hnd hidle, ?_, ?_, ?_, ?_⟩
      · simp [Action.Prunes]
      · simp [Action.Drawn]
      · rw [hgrants]; rfl
      · rw [hgrants]; rfl

/-- Reclaiming takes idle entries only. -/
theorem prune_get {now : Instant} {k : String} {l : LockState} (h : b.locks[k]? = some l) :
    (b.prune env now).locks[k]? = some l ∨ (b.prune env now).locks[k]? = none ∧ l.isIdle = true := by
  unfold prune
  split
  · exact .inl h
  · split
    · exact .inl h
    · rename_i cutoff _
      dsimp only
      rw [OrdMap.get_foldl_erase]
      split
      · rename_i hk
        simp only [pruneKeys, List.mem_filter, h, Option.any_some, Bool.and_eq_true] at hk
        exact .inr ⟨rfl, hk.2.2⟩
      · exact .inl h

theorem get_of_prune {now : Instant} {k : String} {l : LockState} (h : (b.prune env now).locks[k]? = some l) :
    b.locks[k]? = some l := by
  unfold prune at h
  split at h
  · exact h
  · split at h
    · exact h
    · dsimp only at h
      rw [OrdMap.get_foldl_erase] at h
      split at h
      · cases h
      · exact h

/-- The sweep up to the reclaiming of idle keys. -/
theorem tickTtl_wake_does (now : Instant) :
    b.Does env given (Wakes taken)
      (wakeTouched env (b.sweep now).toDropping fun b key => b.tryGrantNext env key) :=
  ((sweep_does now).mono fun _ h => .inl h).trans
    (wakeTouched_does _ fun b key => (tryGrantNext_does env b key).mono fun _ h => .inr h)

/-! ## The keys a release touches -/

theorem modifyLock_get_ne {f : LockState → LockState} {k : String} (h : key ≠ k) :
    (b.modifyLock key f).locks[k]? = b.locks[k]? := by
  unfold modifyLock
  split
  · rfl
  · exact OrdMap.get_insert_ne _ _ h

theorem unlockKeys_get (client : ClientId) {keys : List String} (target : Option String) (force : Bool)
    {k : String} (h : k ∉ keys) : (b.unlockKeys env client keys target force).broker.locks[k]? = b.locks[k]? := by
  unfold unlockKeys
  refine List.foldlRecOn (motive := fun acc : Unlocking => acc.broker.locks[k]? = b.locks[k]?) keys _ rfl ?_
  intro acc hacc key hkey
  have hne : key ≠ k := fun he => h (he ▸ hkey)
  rw [← hacc]
  unfold Unlocking.key
  split
  · rfl
  · split <;> exact OrdMap.get_insert_ne _ _ hne

theorem unlockRelease_locks (client : ClientId) (keys : List String) (target : Option String) (force : Bool) :
    (b.unlockRelease env client keys target force).locks =
      (b.unlockKeys env client keys target force).broker.locks := by
  unfold unlockRelease
  dsimp only
  split
  · split
    · rw [untrackHolders_same]
    · rfl
  · rw [untrackHolders_same]

theorem endReadRelease_get_ne (client : ClientId) {k : String} (h : key ≠ k) :
    (b.endReadRelease env client key l).locks[k]? = b.locks[k]? := by
  unfold endReadRelease
  rw [untrackHolders_same]
  exact OrdMap.get_insert_ne _ _ h

theorem endWriteRelease_get_ne (client : ClientId) {k : String} (h : key ≠ k) :
    (b.endWriteRelease client key l).locks[k]? = b.locks[k]? := by
  unfold endWriteRelease
  split
  · split
    · simp only [untrackHolder, modifyClient_locks, setLock_locks]
      exact OrdMap.get_insert_ne _ _ h
    · rfl
  · rfl

end Broker

/-- Every key whose entry differs from that in `b` is among the touched ones. -/
def Dropping.Marks (d : Dropping) (b : Broker) : Prop :=
  ∀ k, k ∉ d.touchedKeys → d.broker.locks[k]? = b.locks[k]?

namespace Dropping.Marks

variable {env : Env} {d : Dropping} {b : Broker}

theorem touch (h : d.Marks b) (f : LockState → LockState) (key : String) : (d.touch f key).Marks b := by
  intro k hk
  simp only [Dropping.touch, List.mem_insert_iff, not_or] at hk
  exact (Broker.modifyLock_get_ne (Ne.symm hk.1)).trans (h k hk.2)

theorem releaseHeld (h : d.Marks b) (u : String) (kind : RwHoldKind) (key : String) :
    (Dropping.releaseHeld u kind d key).Marks b := by
  unfold Dropping.releaseHeld
  split
  · exact h
  · split
    · exact h
    · intro k hk
      simp only [List.mem_insert_iff, not_or] at hk
      exact (OrdMap.get_insert_ne _ _ (Ne.symm hk.1)).trans (h k hk.2)

theorem foldl {β : Type} {f : Dropping → β → Dropping} (hf : ∀ d x, d.Marks b → (f d x).Marks b) (xs : List β)
    (h : d.Marks b) : (xs.foldl f d).Marks b :=
  List.foldlRecOn xs f h fun d hd x _ => hf d x hd

theorem dropRegistered (client : ClientId) (handle : ClientHandle) :
    (b.dropRegistered env client handle).Marks b := by
  unfold Broker.dropRegistered
  refine foldl (fun d e hd => foldl (fun d k hd => hd.releaseHeld e.1 e.2.rwKind k) _ hd) _ ?_
  exact foldl (fun d p hd => hd.touch _ p.1) _ fun k _ => rfl

theorem dropUnregistered (client : ClientId) : (b.dropUnregistered env client).Marks b := by
  unfold Broker.dropUnregistered
  refine foldl (fun d key hd => hd.touch _ key) _ ?_
  refine foldl (fun d p hd => hd.touch _ p.1) _ ?_
  refine foldl (fun d p hd => hd.touch _ p.1) _ ?_
  exact foldl (fun d p hd => hd.touch _ p.1) _ fun k _ => rfl

theorem sweep (now : Instant) : (b.sweep now).toDropping.Marks b := by
  unfold Broker.sweep
  refine List.foldlRecOn (motive := fun s : Sweeping => s.toDropping.Marks b) _ _ (fun k _ => rfl) ?_
  intro s hs key _
  unfold Sweeping.expire
  split
  · exact hs
  · rename_i entry _
    dsimp only
    split
    · have hd : (Dropping.evict ⟨{ s.broker with deadlines := s.broker.deadlines.erase key },
          s.touchedKeys⟩ entry).Marks b := foldl (fun d k hd => hd.touch _ k) _ hs
      intro k hk
      rw [← hd k hk]
      simp [Broker.untrackHolder]
    · exact hs

end Dropping.Marks

end LiveMutex
