/-
Releases as strips. Whatever takes waiters or holders away from a key (an
unlock, the end of a read or write lease, a client going away, an expired
deadline) is told by what it takes: a test on the waiters, the exclusive
holders, the readers and the writer. Strips of one key compose to one strip,
so a release loop is one strip a key, whatever order it walks in.
-/
import LiveMutex.Sane

namespace LiveMutex

/-- What a release takes away from a key. -/
structure Strip where
  waiter : String → PendingRequest → Bool := fun _ _ => false
  exclusive : String → ExclusiveHolder → Bool := fun _ _ => false
  reader : String → RwHolder → Bool := fun _ _ => false
  writer : RwHolder → Bool := fun _ => false

namespace Strip

@[ext] theorem ext {s t : Strip} (hq : ∀ x p, s.waiter x p = t.waiter x p)
    (he : ∀ u h, s.exclusive u h = t.exclusive u h) (hr : ∀ u h, s.reader u h = t.reader u h)
    (hw : ∀ w, s.writer w = t.writer w) : s = t := by
  cases s; cases t
  simp only [Strip.mk.injEq]
  exact ⟨funext₂ hq, funext₂ he, funext₂ hr, funext hw⟩

def nothing : Strip := {}

/-- What one of the two takes. -/
def both (s t : Strip) : Strip where
  waiter x p := s.waiter x p || t.waiter x p
  exclusive u h := s.exclusive u h || t.exclusive u h
  reader u h := s.reader u h || t.reader u h
  writer w := s.writer w || t.writer w

/-- What one of many takes. -/
def any {ε : Type} (es : List ε) (f : ε → Strip) : Strip where
  waiter x p := es.any fun e => (f e).waiter x p
  exclusive u h := es.any fun e => (f e).exclusive u h
  reader u h := es.any fun e => (f e).reader u h
  writer w := es.any fun e => (f e).writer w

/-- The strip `s` on one key. -/
def on (key : String) (s : Strip) : String → Strip := fun k => if k = key then s else nothing

@[simp] theorem on_waiter (key k : String) (s : Strip) (x : String) (p : PendingRequest) :
    (on key s k).waiter x p = (decide (k = key) && s.waiter x p) := by
  by_cases h : k = key <;> simp [on, h, nothing]

@[simp] theorem on_exclusive (key k : String) (s : Strip) (u : String) (h : ExclusiveHolder) :
    (on key s k).exclusive u h = (decide (k = key) && s.exclusive u h) := by
  by_cases h : k = key <;> simp [on, h, nothing]

@[simp] theorem on_reader (key k : String) (s : Strip) (u : String) (h : RwHolder) :
    (on key s k).reader u h = (decide (k = key) && s.reader u h) := by
  by_cases h : k = key <;> simp [on, h, nothing]

@[simp] theorem on_writer (key k : String) (s : Strip) (w : RwHolder) :
    (on key s k).writer w = (decide (k = key) && s.writer w) := by
  by_cases h : k = key <;> simp [on, h, nothing]

theorem any_cons {ε : Type} (e : ε) (es : List ε) (f : ε → Strip) : any (e :: es) f = (f e).both (any es f) := by
  ext <;> simp [any, both]

/-- One strip on many keys. -/
theorem any_on (keys : List String) (s : Strip) (k : String) :
    any keys (fun key => on key s k) = if k ∈ keys then s else nothing := by
  induction keys with
  | nil => rfl
  | cons key keys ih =>
    rw [any_cons, ih]
    unfold on
    by_cases hk : k = key
    · subst hk
      ext <;> simp [both] <;> split <;> simp [nothing]
    · ext <;> simp [both, hk, nothing]

end Strip

namespace LockState

/-- The key without what the strip takes. -/
def strip (l : LockState) (s : Strip) : LockState :=
  { l with
    queue := l.queue.filter fun x p => !s.waiter x p
    exclusiveHolders := l.exclusiveHolders.filter fun u h => !s.exclusive u h
    readers := l.readers.filter fun u h => !s.reader u h
    writer := l.writer.filter fun w => !s.writer w }

theorem ext_get {l l' : LockState} (hq : l.queue.entries = l'.queue.entries)
    (he : ∀ u : String, l.exclusiveHolders[u]? = l'.exclusiveHolders[u]?)
    (hr : ∀ u : String, l.readers[u]? = l'.readers[u]?)
    (hw : l.writer = l'.writer) (hm : l.max = l'.max) (hc : l.fencingCounter = l'.fencingCounter)
    (ht : l.timestampEmptied = l'.timestampEmptied) : l = l' := by
  cases l; cases l'
  simp only [LockState.mk.injEq]
  exact ⟨OrdMap.eq_of_get he, hm, OrdMap.eq_of_get hr, hw, LinkedQueue.ext hq, hc, ht⟩

variable (l : LockState)

theorem strip_exclusiveHolders (s : Strip) (u : String) :
    (l.strip s).exclusiveHolders[u]? = l.exclusiveHolders[u]?.filter fun h => !s.exclusive u h :=
  Std.ExtTreeMap.getElem?_filter'

theorem strip_readers (s : Strip) (u : String) :
    (l.strip s).readers[u]? = l.readers[u]?.filter fun h => !s.reader u h :=
  Std.ExtTreeMap.getElem?_filter'

/-- Only what the strips say about those on the key matters. -/
theorem strip_congr {s t : Strip} (hq : ∀ e ∈ l.queue.entries, s.waiter e.1 e.2 = t.waiter e.1 e.2)
    (he : ∀ (u : String) h, l.exclusiveHolders[u]? = some h → s.exclusive u h = t.exclusive u h)
    (hr : ∀ (u : String) h, l.readers[u]? = some h → s.reader u h = t.reader u h)
    (hw : ∀ w, l.writer = some w → s.writer w = t.writer w) : l.strip s = l.strip t := by
  refine ext_get ?_ (fun u => ?_) (fun u => ?_) ?_ rfl rfl rfl
  · exact List.filter_congr fun e h => by simp only [hq e h]
  · rw [strip_exclusiveHolders, strip_exclusiveHolders]
    cases h : l.exclusiveHolders[u]? with
    | none => rfl
    | some e => simp [Option.filter, he u e h]
  · rw [strip_readers, strip_readers]
    cases h : l.readers[u]? with
    | none => rfl
    | some e => simp [Option.filter, hr u e h]
  · unfold strip
    cases h : l.writer with
    | none => rfl
    | some w => simp [Option.filter, hw w h]

theorem strip_strip (s t : Strip) : (l.strip s).strip t = l.strip (s.both t) := by
  refine ext_get ?_ (fun u => ?_) (fun u => ?_) ?_ rfl rfl rfl
  · simp [strip, Strip.both, List.filter_filter, Bool.and_comm]
  · simp only [strip_exclusiveHolders, Strip.both, Option.filter_filter, Bool.not_or]
  · simp only [strip_readers, Strip.both, Option.filter_filter, Bool.not_or]
  · simp only [strip, Strip.both, Option.filter_filter, Bool.not_or]

/-- A test everything passes. -/
@[simp] theorem filter_pass {α : Type} (o : Option α) : (o.filter fun _ => true) = o := by cases o <;> rfl

attribute [local simp] strip_exclusiveHolders strip_readers

theorem strip_nothing : l.strip .nothing = l :=
  ext_get (by simp [strip, Strip.nothing]) (fun u => by simp [Strip.nothing]) (fun u => by simp [Strip.nothing])
    (by simp [strip, Strip.nothing]) rfl rfl rfl

/-! ## The releases of one key -/

theorem removeWaiter_eq (x : String) : l.removeWaiter x = l.strip { waiter := fun y _ => y = x } :=
  ext_get (by simp [removeWaiter, strip]) (fun u => by simp [removeWaiter]) (fun u => by simp [removeWaiter])
    (by simp [removeWaiter, strip]) rfl rfl rfl

theorem removeExclusive_eq (u : String) : l.removeExclusive u = l.strip { exclusive := fun v _ => v = u } := by
  refine ext_get (by simp [removeExclusive, strip]) (fun v => ?_) (fun v => by simp [removeExclusive])
    (by simp [removeExclusive, strip]) rfl rfl rfl
  rw [strip_exclusiveHolders, removeExclusive, OrdMap.get_erase]
  by_cases h : u = v
  · subst h; cases l.exclusiveHolders[u]? <;> simp
  · simp [h, Ne.symm h]

theorem removeReader_eq (u : String) : l.removeReader u = l.strip { reader := fun v _ => v = u } := by
  refine ext_get (by simp [removeReader, strip]) (fun v => by simp [removeReader]) (fun v => ?_)
    (by simp [removeReader, strip]) rfl rfl rfl
  rw [strip_readers, removeReader, OrdMap.get_erase]
  by_cases h : u = v
  · subst h; cases l.readers[u]? <;> simp
  · simp [h, Ne.symm h]

theorem clearWriter_eq : l.clearWriter = l.strip { writer := fun _ => true } := by
  refine ext_get (by simp [clearWriter, strip]) (fun v => by simp [clearWriter]) (fun v => by simp [clearWriter])
    ?_ rfl rfl rfl
  unfold strip clearWriter
  cases l.writer <;> rfl

theorem wipe_eq : l.wipe = l.strip ⟨fun _ _ => false, fun _ _ => true, fun _ _ => true, fun _ => true⟩ := by
  refine ext_get (by simp [wipe, strip]) (fun v => ?_) (fun v => ?_) ?_ rfl rfl rfl
  · rw [strip_exclusiveHolders, wipe]
    cases l.exclusiveHolders[v]? <;> simp
  · rw [strip_readers, wipe]
    cases l.readers[v]? <;> simp
  · unfold strip wipe
    cases l.writer <;> rfl

end LockState

/-- What releasing one holder by uuid and kind takes. -/
def Strip.holder (u : String) : RwHoldKind → Strip
  | .exclusive => { exclusive := fun v _ => v = u }
  | .read => { reader := fun v _ => v = u }
  | .write => { writer := fun w => w.lockUuid = u }

namespace LockState

variable (l : LockState)

attribute [local simp] strip_exclusiveHolders strip_readers

theorem removeForKind_eq (u : String) (kind : RwHoldKind) : l.removeForKind u kind = l.strip (.holder u kind) := by
  cases kind with
  | exclusive => exact l.removeExclusive_eq u
  | read => exact l.removeReader_eq u
  | write =>
    have hwriter : (l.removeForKind u .write).writer = l.writer.filter fun w => !decide (w.lockUuid = u) := by
      unfold removeForKind
      cases hw : l.writer with
      | none => simp [hw]
      | some w => by_cases h : w.lockUuid = u <;> simp [h, hw, clearWriter, Option.filter]
    have hrest : l.removeForKind u .write = { l with writer := (l.removeForKind u .write).writer } := by
      unfold removeForKind
      dsimp only
      split <;> rfl
    rw [hrest, hwriter]
    exact ext_get (by simp [strip, Strip.holder]) (fun v => by simp [Strip.holder]) (fun v => by simp [Strip.holder])
      rfl rfl rfl rfl

theorem strip_if (c : Prop) [Decidable c] (s : Strip) :
    (if c then l.strip s else l) = l.strip (if c then s else .nothing) := by
  split
  · rfl
  · rw [strip_nothing]

end LockState

/-- What an unlock takes, given whom it may unlock: the holder of the target
uuid, or every holder. -/
def Strip.unlock (canUnlock : ClientId → Bool) : Option String → Strip
  | some target =>
    { exclusive := fun u h => u = target && canUnlock h.client
      reader := fun u h => u = target && canUnlock h.client
      writer := fun w => w.lockUuid = target && canUnlock w.client }
  | none => ⟨fun _ _ => false, fun _ _ => true, fun _ _ => true, fun _ => true⟩

theorem LockState.unlockTarget_eq (l : LockState) (canUnlock : ClientId → Bool) (target : String) :
    (l.unlockTarget canUnlock target).lock = l.strip (.unlock canUnlock (some target)) := by
  unfold unlockTarget
  simp only [Released.when_lock, removeExclusive_eq, removeReader_eq, clearWriter_eq, strip_if]
  rw [strip_strip, strip_strip]
  refine l.strip_congr (fun e _ => ?_) (fun u h hu => ?_) (fun u h hu => ?_) (fun w hw => ?_)
  · simp only [Strip.both, Strip.unlock]
    split_ifs <;> rfl
  · by_cases he : u = target
    · subst he
      simp only [hu, Strip.both, Strip.unlock, Option.map_some, Option.any_some]
      split_ifs <;> simp_all [Strip.nothing]
    · simp only [Strip.both, Strip.unlock]
      split_ifs <;> simp [he, Strip.nothing]
  · by_cases he : u = target
    · subst he
      simp only [hu, Strip.both, Strip.unlock, Option.map_some, Option.any_some]
      split_ifs <;> simp_all [Strip.nothing]
    · simp only [Strip.both, Strip.unlock]
      split_ifs <;> simp [he, Strip.nothing]
  · simp only [hw, writerOwner, Strip.both, Strip.unlock]
    by_cases he : w.lockUuid = target
    · split_ifs <;> simp_all [Strip.nothing]
    · split_ifs <;> simp_all [Strip.nothing]

/-! ## The whole table -/

namespace LockTable

/-- The table with a strip of its own on every key. -/
def strip (t : LockTable) (f : String → Strip) : LockTable := t.map fun k l => l.strip (f k)

variable (t : LockTable)

theorem get_strip (f : String → Strip) (k : String) : (strip t f)[k]? = t[k]?.map fun l => l.strip (f k) :=
  Std.ExtTreeMap.getElem?_map

theorem strip_strip (f g : String → Strip) : strip (strip t f) g = strip t fun k => (f k).both (g k) := by
  apply OrdMap.eq_of_get
  intro k
  simp only [get_strip, Option.map_map]
  cases t[k]? with
  | none => rfl
  | some l => exact congrArg some (l.strip_strip _ _)

theorem strip_nothing : strip t (fun _ => .nothing) = t := by
  apply OrdMap.eq_of_get
  intro k
  rw [get_strip]
  cases t[k]? with
  | none => rfl
  | some l => exact congrArg some l.strip_nothing

variable {t}

/-- A strip of one key, stored. -/
theorem insert_strip {key : String} {l : LockState} (h : t[key]? = some l) (s : Strip) :
    t.insert key (l.strip s) = strip t (.on key s) := by
  apply OrdMap.eq_of_get
  intro k
  rw [get_strip, OrdMap.get_insert]
  by_cases hk : key = k
  · subst hk; simp [h, Strip.on]
  · rw [if_neg hk, Strip.on, if_neg (Ne.symm hk)]
    cases t[k]? with
    | none => rfl
    | some l => exact congrArg some l.strip_nothing.symm

theorem strip_of_none {key : String} (h : t[key]? = none) (s : Strip) : strip t (.on key s) = t := by
  apply OrdMap.eq_of_get
  intro k
  rw [get_strip]
  by_cases hk : key = k
  · subst hk; simp [h]
  · rw [Strip.on, if_neg (Ne.symm hk)]
    cases t[k]? with
    | none => rfl
    | some l => exact congrArg some l.strip_nothing

theorem strip_congr {f g : String → Strip} (h : ∀ (k : String) (l : LockState), t[k]? = some l → l.strip (f k) = l.strip (g k)) :
    strip t f = strip t g := by
  apply OrdMap.eq_of_get
  intro k
  rw [get_strip, get_strip]
  cases hk : t[k]? with
  | none => rfl
  | some l => exact congrArg some (h k l hk)

/-- A loop that strips in every round has taken, on every key, what one of the
rounds takes. -/
theorem foldl_strip {σ ε : Type} (locks : σ → LockTable) {step : σ → ε → σ} {f : ε → String → Strip}
    (h : ∀ s e, locks (step s e) = strip (locks s) (f e)) :
    ∀ (es : List ε) (s : σ), locks (es.foldl step s) = strip (locks s) fun k => Strip.any es fun e => f e k
  | [], s => (strip_nothing _).symm
  | e :: es, s => by
    rw [List.foldl_cons, foldl_strip locks h es, h, strip_strip]
    simp only [Strip.any_cons]

end LockTable

namespace Broker

variable {env : Env} {b : Broker}

theorem modifyLock_strip {f : LockState → LockState} {s : Strip} (hf : ∀ l, f l = l.strip s) (key : String) :
    (b.modifyLock key f).locks = b.locks.strip (.on key s) := by
  unfold modifyLock
  split
  · rename_i h
    exact (LockTable.strip_of_none h s).symm
  · rename_i l h
    rw [setLock_locks, hf, LockTable.insert_strip h]

/-- The release loop of an unlock. -/
theorem unlockKeys_locks (client : ClientId) (keys : List String) (target : Option String) (force : Bool) :
    (b.unlockKeys env client keys target force).broker.locks = b.locks.strip fun k =>
      if k ∈ keys then .unlock (b.canUnlockTarget client force) target else .nothing := by
  have hstep : ∀ (acc : Unlocking) (key : String),
      (Unlocking.key (env.order b.reads) (b.canUnlockTarget client force) target acc key).broker.locks =
        acc.broker.locks.strip (.on key (.unlock (b.canUnlockTarget client force) target)) := by
    intro acc key
    unfold Unlocking.key
    split
    · rename_i h
      exact (LockTable.strip_of_none h _).symm
    · rename_i l h
      cases target with
      | none =>
        simp only [setLock_locks]
        rw [l.wipe_eq, ← LockTable.insert_strip h]
        rfl
      | some target =>
        simp only [setLock_locks]
        rw [l.unlockTarget_eq, LockTable.insert_strip h]
  unfold unlockKeys
  rw [LockTable.foldl_strip (fun acc : Unlocking => acc.broker.locks) hstep]
  simp only [Strip.any_on]

theorem endReadRelease_locks {key : String} {l : LockState} (client : ClientId) (h : b.locks[key]? = some l) :
    (b.endReadRelease env client key l).locks =
      b.locks.strip (.on key { reader := fun _ r => r.client = client }) := by
  unfold endReadRelease
  dsimp only
  rw [untrackHolders_same]
  simp only [setLock_locks]
  rw [← LockTable.insert_strip h]
  congr 1
  refine LockState.ext_get (by simp [LockState.strip]) (fun u => by simp [LockState.strip_exclusiveHolders])
    (fun u => ?_) (by simp [LockState.strip]) rfl rfl rfl
  rw [LockState.strip_readers, OrdMap.get_foldl_erase]
  cases hu : l.readers[u]? with
  | none => simp
  | some r =>
    have hkey : u ∈ l.readers.keys := by
      rw [Std.ExtTreeMap.mem_keys, OrdMap.mem_iff_get]
      exact ⟨r, hu⟩
    simp only [List.mem_filter, (env.order_perm _ _).mem_iff, hkey, hu, Option.any_some, decide_eq_true_eq,
      true_and, Option.filter]
    by_cases hc : r.client = client <;> simp [hc]

theorem endWriteRelease_locks {key : String} {l : LockState} (client : ClientId) (h : b.locks[key]? = some l) :
    (b.endWriteRelease client key l).locks =
      b.locks.strip (.on key { writer := fun w => w.client = client }) := by
  have hsame : ∀ l' : LockState, l' = l.strip { writer := fun w => w.client = client } →
      b.locks.insert key l' = b.locks.strip (.on key { writer := fun w => w.client = client }) := by
    rintro _ rfl
    exact LockTable.insert_strip h _
  unfold endWriteRelease
  split
  · rename_i w hw
    split
    · rename_i hc
      simp only [untrackHolder, modifyClient_locks, setLock_locks]
      apply hsame
      rw [l.clearWriter_eq]
      exact l.strip_congr (fun _ _ => rfl) (fun _ _ _ => rfl) (fun _ _ _ => rfl) fun w' hw' => by
        rw [hw] at hw'
        obtain rfl := Option.some.inj hw'
        simp [hc]
    · rename_i hc
      rw [← hsame l, OrdMap.insert_get h]
      refine (l.strip_nothing.symm.trans ?_)
      exact l.strip_congr (fun _ _ => rfl) (fun _ _ _ => rfl) (fun _ _ _ => rfl) fun w' hw' => by
        rw [hw] at hw'
        obtain rfl := Option.some.inj hw'
        simp [hc, Strip.nothing]
  · rename_i hw
    rw [← hsame l, OrdMap.insert_get h]
    refine (l.strip_nothing.symm.trans ?_)
    exact l.strip_congr (fun _ _ => rfl) (fun _ _ _ => rfl) (fun _ _ _ => rfl) fun w' hw' => by
      rw [hw] at hw'
      cases hw'

/-- Every key of an expired deadline. -/
theorem evict_locks (d : Dropping) (entry : DeadlineEntry) :
    (d.evict entry).broker.locks = d.broker.locks.strip fun k =>
      if k ∈ entry.keys then .holder entry.lockUuid entry.kind else .nothing := by
  unfold Dropping.evict
  rw [LockTable.foldl_strip (fun d : Dropping => d.broker.locks)
    fun d k => modifyLock_strip (fun l => l.removeForKind_eq entry.lockUuid entry.kind) k]
  simp only [Strip.any_on]

end Broker

/-- The hold outlives its client. -/
def ExclusiveHolder.kept (h : ExclusiveHolder) : Bool := h.keepLocksAfterDeath && !h.compositeMember

/-- What losing a held lock takes from one of its keys: not an exclusive
holder kept after death. -/
def Strip.held (u : String) (kind : RwHoldKind) : Strip where
  exclusive v h := kind = .exclusive && v = u && !h.kept
  reader v _ := kind = .read && v = u
  writer w := kind = .write && w.lockUuid = u

theorem LockState.strip_held (l : LockState) (u : String) (kind : RwHoldKind) :
    (if l.keptAfterDeath u kind then l else l.removeForKind u kind) = l.strip (.held u kind) := by
  rw [removeForKind_eq]
  cases kind with
  | read =>
    rw [show Strip.held u .read = .holder u .read by ext <;> simp [Strip.held, Strip.holder]]
    rfl
  | write =>
    rw [show Strip.held u .write = .holder u .write by ext <;> simp [Strip.held, Strip.holder]]
    rfl
  | exclusive =>
    -- the test is about the one holder of this uuid
    have hkept : ∀ h, l.exclusiveHolders[u]? = some h → l.keptAfterDeath u .exclusive = h.kept := by
      intro h hu
      simp [keptAfterDeath, hu, ExclusiveHolder.kept]
    split
    · rename_i hk
      refine l.strip_nothing.symm.trans (l.strip_congr (fun _ _ => rfl) (fun v h hv => ?_)
        (by simp [Strip.held, Strip.nothing]) (by simp [Strip.held, Strip.nothing]))
      by_cases he : v = u
      · subst he
        simp [Strip.held, Strip.nothing, ← hkept h hv, hk]
      · simp [Strip.held, Strip.nothing, he]
    · rename_i hk
      refine l.strip_congr (fun _ _ => rfl) (fun v h hv => ?_)
        (by simp [Strip.held, Strip.holder]) (by simp [Strip.held, Strip.holder])
      by_cases he : v = u
      · subst he
        simp [Strip.held, Strip.holder, ← hkept h hv, hk]
      · simp [Strip.held, Strip.holder, he]

instance instLawfulBEqKeyUuid : LawfulBEq (String × String) := inferInstance

/-- What the end of a registered client takes from a key, by its handle. -/
def ClientHandle.strip (handle : ClientHandle) (k : String) : Strip where
  waiter x _ := (k, x) ∈ handle.pendingRequestUuids
  exclusive u h := (handle.heldLockUuids[u]?.any fun ko => ko.rwKind = .exclusive ∧ k ∈ ko.keys) && !h.kept
  reader u _ := handle.heldLockUuids[u]?.any fun ko => ko.rwKind = .read ∧ k ∈ ko.keys
  writer w := handle.heldLockUuids[w.lockUuid]?.any fun ko => ko.rwKind = .write ∧ k ∈ ko.keys

/-- What the end of an unregistered client takes from a key. -/
def Strip.client (client : ClientId) : Strip where
  waiter _ p := p.client = client
  exclusive _ h := h.client = client
  reader _ h := h.client = client
  writer w := w.client = client

namespace Broker

variable {env : Env} {b : Broker}

theorem releaseHeld_locks (u : String) (kind : RwHoldKind) (d : Dropping) (key : String) :
    (Dropping.releaseHeld u kind d key).broker.locks = d.broker.locks.strip (.on key (.held u kind)) := by
  unfold Dropping.releaseHeld
  split
  · rename_i h
    exact (LockTable.strip_of_none h _).symm
  · rename_i l h
    rw [← LockTable.insert_strip h, ← l.strip_held]
    split
    · exact (OrdMap.insert_get h).symm
    · rfl

/-- The locks of a handle, in whatever order they are walked. -/
theorem strip_heldLocks (n : Nat) (held : OrdMap String KeysOfLock) (k : String) :
    Strip.any (hashIter (env.order n) held)
        (fun e => if k ∈ e.2.keys then .held e.1 e.2.rwKind else .nothing) =
      { exclusive := fun u h => (held[u]?.any fun ko => ko.rwKind = .exclusive ∧ k ∈ ko.keys) && !h.kept
        reader := fun u _ => held[u]?.any fun ko => ko.rwKind = .read ∧ k ∈ ko.keys
        writer := fun w => held[w.lockUuid]?.any fun ko => ko.rwKind = .write ∧ k ∈ ko.keys } := by
  have hif : ∀ e : String × KeysOfLock,
      (if k ∈ e.2.keys then Strip.held e.1 e.2.rwKind else .nothing) =
        { exclusive := fun v h => decide (k ∈ e.2.keys) && (e.2.rwKind = .exclusive && v = e.1 && !h.kept)
          reader := fun v _ => decide (k ∈ e.2.keys) && (e.2.rwKind = .read && v = e.1)
          writer := fun w => decide (k ∈ e.2.keys) && (e.2.rwKind = .write && w.lockUuid = e.1) } := by
    intro e
    split <;> rename_i h <;> ext <;> simp [Strip.held, Strip.nothing, h]
  simp only [hif]
  ext
  · simp [Strip.any]
  · rw [Bool.eq_iff_iff]
    simp [Strip.any, mem_hashIter, Option.any_eq_true]
    grind
  · rw [Bool.eq_iff_iff]
    simp [Strip.any, mem_hashIter, Option.any_eq_true]
    grind
  · rw [Bool.eq_iff_iff]
    simp [Strip.any, mem_hashIter, Option.any_eq_true]
    grind

theorem dropRegistered_locks (client : ClientId) (handle : ClientHandle) :
    (b.dropRegistered env client handle).broker.locks = b.locks.strip handle.strip := by
  unfold dropRegistered
  dsimp only
  have hheld : ∀ (d : Dropping) (e : String × KeysOfLock),
      (e.2.keys.foldl (Dropping.releaseHeld e.1 e.2.rwKind) d).broker.locks =
        d.broker.locks.strip fun k => if k ∈ e.2.keys then .held e.1 e.2.rwKind else .nothing := by
    intro d e
    rw [LockTable.foldl_strip (fun d : Dropping => d.broker.locks)
      fun d key => releaseHeld_locks e.1 e.2.rwKind d key]
    simp only [Strip.any_on]
  have hpending : ∀ (d : Dropping) (p : String × String),
      (Dropping.touch d (·.removeWaiter p.2) p.1).broker.locks =
        d.broker.locks.strip (.on p.1 { waiter := fun y _ => y = p.2 }) :=
    fun d p => modifyLock_strip (fun l => l.removeWaiter_eq p.2) p.1
  rw [LockTable.foldl_strip (fun d : Dropping => d.broker.locks) hheld,
    LockTable.foldl_strip (fun d : Dropping => d.broker.locks) hpending, LockTable.strip_strip]
  congr 1
  funext k
  rw [strip_heldLocks]
  ext
  · rw [Bool.eq_iff_iff]
    simp [Strip.both, Strip.any, ClientHandle.strip]
  · simp [Strip.both, Strip.any, ClientHandle.strip]
  · simp [Strip.both, Strip.any, ClientHandle.strip]
  · simp [Strip.both, Strip.any, ClientHandle.strip]

theorem dropUnregistered_locks (client : ClientId) :
    (b.dropUnregistered env client).broker.locks = b.locks.strip fun _ => .client client := by
  unfold dropUnregistered
  dsimp only
  rw [LockTable.foldl_strip (fun d : Dropping => d.broker.locks)
      fun d key => modifyLock_strip (fun l => l.clearWriter_eq) key,
    LockTable.foldl_strip (fun d : Dropping => d.broker.locks)
      fun d (p : String × String) => modifyLock_strip (fun l => l.removeReader_eq p.2) p.1,
    LockTable.foldl_strip (fun d : Dropping => d.broker.locks)
      fun d (p : String × String) => modifyLock_strip (fun l => l.removeExclusive_eq p.2) p.1,
    LockTable.foldl_strip (fun d : Dropping => d.broker.locks)
      fun d (p : String × String) => modifyLock_strip (fun l => l.removeWaiter_eq p.2) p.1,
    LockTable.strip_strip, LockTable.strip_strip, LockTable.strip_strip]
  refine LockTable.strip_congr fun k l hl => l.strip_congr (fun e he => ?_) (fun u h hu => ?_) (fun u h hu => ?_)
    fun w hw => ?_
  · have huniq : ∀ p, (e.1, p) ∈ l.queue.entries → p = e.2 := fun p hp => LinkedQueue.eq_of_mem hp he
    rw [Bool.eq_iff_iff]
    simp [Strip.both, Strip.any, Strip.client, mem_hashIter]
    grind
  · rw [Bool.eq_iff_iff]
    simp [Strip.both, Strip.any, Strip.client, mem_hashIter]
    grind
  · rw [Bool.eq_iff_iff]
    simp [Strip.both, Strip.any, Strip.client, mem_hashIter]
    grind
  · rw [Bool.eq_iff_iff]
    simp [Strip.both, Strip.any, Strip.client, mem_hashIter]
    grind

end Broker

end LiveMutex
