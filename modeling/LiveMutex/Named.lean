/-
No empty names in the table: as long as requests have non-empty keys and uuids,
so have its entries, its holders and its waiters.
-/
import LiveMutex.Sane

namespace LiveMutex

/-- The waiter's uuids, and the keys of a composite one, are not empty. -/
structure PendingRequest.Named (p : PendingRequest) : Prop where
  requestUuid : p.requestUuid ≠ ""
  grantLockUuid : p.grantLockUuid ≠ some ""
  composite : ∀ c, p.kind = .composite c → c.compositeLockUuid ≠ "" ∧ (∀ k ∈ c.allKeys, k ≠ "") ∧
    ∀ k ∈ c.remainingKeys, k ≠ ""

/-- Whoever is on the key has a name. -/
structure LockState.Named (l : LockState) : Prop where
  exclusive : ∀ u ∈ l.exclusiveHolders, u ≠ ""
  readers : ∀ u ∈ l.readers, u ≠ ""
  writer : ∀ w, l.writer = some w → w.lockUuid ≠ ""
  waiters : ∀ e ∈ l.queue.entries, e.2.Named

/-- Every key has a name, and whoever is on it. -/
def LockTable.Named (t : LockTable) : Prop := AllLocks (fun key l => key ≠ "" ∧ l.Named) t

/-- The request's uuid and keys, and a lock uuid it prescribes, are not empty. -/
def Op.Named : Op → Prop
  | .request _ r overrides => r.uuid ≠ "" ∧ (∀ k ∈ r.keys, k ≠ "") ∧ overrides.lockUuid ≠ some ""
  | _ => True

namespace LockState

variable {l l' : LockState}

theorem Named.of_fresh {cfg : BrokerConfig} {floor : Nat} (h : l.Fresh cfg floor) : l.Named where
  exclusive := by simp [h.exclusiveHolders]
  readers := by simp [h.readers]
  writer := by simp [h.writer]
  waiters := by simp [h.queue]

/-- Fewer holders and waiters. -/
theorem Named.shrink (h : l.Named) (he : ∀ u ∈ l'.exclusiveHolders, u ∈ l.exclusiveHolders)
    (hr : ∀ u ∈ l'.readers, u ∈ l.readers)
    (hw : ∀ w, l'.writer = some w → ∃ w', l.writer = some w' ∧ w'.lockUuid = w.lockUuid)
    (hq : ∀ e ∈ l'.queue.entries, e ∈ l.queue.entries) : l'.Named where
  exclusive u hu := h.exclusive u (he u hu)
  readers u hu := h.readers u (hr u hu)
  writer w hw' := by
    obtain ⟨w', hl, hu⟩ := hw w hw'
    exact hu ▸ h.writer w' hl
  waiters e he := h.waiters e (hq e he)

/-- The same holders, waiters with names. -/
theorem Named.requeue (h : l.Named) (he : l'.exclusiveHolders = l.exclusiveHolders) (hr : l'.readers = l.readers)
    (hw : l'.writer = l.writer) (hq : ∀ e ∈ l'.queue.entries, e ∈ l.queue.entries ∨ e.2.Named) : l'.Named where
  exclusive u hu := h.exclusive u (he ▸ hu)
  readers u hu := h.readers u (hr ▸ hu)
  writer w hw' := h.writer w (hw ▸ hw')
  waiters e he := (hq e he).elim (h.waiters e) id

theorem Named.pop (h : l.Named) : l.pop.Named :=
  h.requeue rfl rfl rfl fun _ he => .inl (List.mem_of_mem_tail he)

theorem Named.push {p : PendingRequest} (h : l.Named) (hp : p.Named) : (l.push p).Named := by
  refine h.requeue rfl rfl rfl fun e he => ?_
  rcases LinkedQueue.mem_pushBack he with he | rfl
  · exact .inl he
  · exact .inr hp

theorem Named.pushFirst {p : PendingRequest} (h : l.Named) (hp : p.Named) : (l.pushFirst p).Named := by
  refine h.requeue rfl rfl rfl fun e he => ?_
  rcases LinkedQueue.mem_pushFront he with he | rfl
  · exact .inl he
  · exact .inr hp

theorem Named.take {terms : Terms} {g : Grant} (h : l.Named) (hu : g.lockUuid ≠ "") : (l.take terms g).Named := by
  have hinsert : ∀ {β : Type} {m : OrdMap String β} {v : β}, (∀ u ∈ m, u ≠ "") →
      ∀ u ∈ m.insert g.lockUuid v, u ≠ "" := by
    intro β m v hm u hmem
    rcases Std.ExtTreeMap.mem_insert.1 hmem with he | he
    · exact compare_eq_iff_eq.1 he ▸ hu
    · exact hm u he
  refine ⟨?_, ?_, ?_, by rw [take_queue]; exact h.waiters⟩ <;> unfold LockState.take <;> dsimp only <;>
    rw [nextOrForcedFencingToken_eq] <;> split
  all_goals first
    | exact hinsert h.exclusive
    | exact hinsert h.readers
    | exact h.exclusive
    | exact h.readers
    | exact h.writer
    | (intro w hw; obtain rfl := Option.some.inj hw; exact hu)

theorem Named.removeForKind (h : l.Named) (u : String) (kind : RwHoldKind) : (l.removeForKind u kind).Named := by
  cases kind with
  | exclusive =>
    exact h.shrink (fun v hv => (Std.ExtTreeMap.mem_erase.1 hv).2) (fun _ hv => hv) (fun w hw => ⟨w, hw, rfl⟩)
      fun _ he => he
  | read =>
    exact h.shrink (fun _ hv => hv) (fun v hv => (Std.ExtTreeMap.mem_erase.1 hv).2) (fun w hw => ⟨w, hw, rfl⟩)
      fun _ he => he
  | write =>
    unfold LockState.removeForKind
    dsimp only
    split
    · exact h.shrink (fun _ hv => hv) (fun _ hv => hv) (by simp [clearWriter]) fun _ he => he
    · exact h

theorem Named.detachOwner (h : l.Named) (u : String) : (l.detachOwner u).Named := by
  refine h.shrink (fun v hv => ?_) (fun v hv => ?_) (fun w hw => ?_) fun _ he => he
  · exact Std.ExtTreeMap.mem_modify.1 hv
  · exact Std.ExtTreeMap.mem_modify.1 hv
  · obtain ⟨w', hl, rfl⟩ := Option.map_eq_some_iff.1 hw
    exact ⟨w', hl, by split <;> rfl⟩

end LockState

theorem PendingRequest.Named.moved {p : PendingRequest} {c : Composite} (h : p.Named) (hc : p.kind = .composite c)
    (key : String) (token : Nat) : (p.moved (c.advance key token)).Named where
  requestUuid := h.requestUuid
  grantLockUuid := nofun
  composite c' hc' := by
    obtain rfl := PendingKind.composite.inj hc'
    obtain ⟨hu, hall, hrem⟩ := h.composite c hc
    exact ⟨hu, hall, fun k hk => hrem k (List.mem_of_mem_tail hk)⟩

/-- What an action brings in has a name. -/
def Action.Names : Action → Prop
  | .create k _ => k ≠ ""
  | .enqueue _ p _ => p.requestUuid ≠ "" ∧ ∀ c, p.kind = .composite c → ∀ k ∈ c.allKeys, k ≠ ""
  | _ => True

/-- A name that was given or drawn. -/
theorem Env.named {env : Env} {given : Option String} {lo hi : Nat} {u : String} (hg : given ≠ some "")
    (h : given = some u ∨ given = none ∧ env.Drew lo hi u) : u ≠ "" := by
  rcases h with h | ⟨_, n, _, _, rfl⟩
  · rintro rfl
    exact hg h
  · exact env.newV4_ne n

theorem Step.named {env : Env} {given : Option String} {cfg : BrokerConfig} {floor lo hi : Nat} {t t' : LockTable}
    {a : Action} (h : Step cfg floor t a t') (hg : given ≠ some "") (ha : a.Names) (hd : a.Drawn env given lo hi)
    (ht : t.Named) : LockTable.Named t' := by
  -- who is at the head of a queue has a name
  have head : ∀ {key : String} {l : LockState} {p : PendingRequest}, t[key]? = some l →
      (∃ x, l.queue.front = some (x, p)) → p.Named := by
    rintro key l p hl ⟨x, hx⟩
    exact (ht key l hl).2.waiters _ (List.mem_of_mem_head? hx)
  cases h with
  | create _ hl => exact AllLocks.insert ht ⟨ha, .of_fresh hl⟩
  | setMax hk _ _ => exact AllLocks.insert ht ⟨(ht _ _ hk).1, (ht _ _ hk).2.requeue rfl rfl rfl fun _ h => .inl h⟩
  | stamp hk _ => exact AllLocks.insert ht ⟨(ht _ _ hk).1, (ht _ _ hk).2.requeue rfl rfl rfl fun _ h => .inl h⟩
  | grant hk _ _ => exact AllLocks.insert ht ⟨(ht _ _ hk).1, (ht _ _ hk).2.take (Env.named hg hd)⟩
  | @grantHead g p l hk _ hfor hu =>
    refine AllLocks.insert ht ⟨(ht _ _ hk).1, (ht _ _ hk).2.pop.take ?_⟩
    cases hp : p.grantLockUuid with
    | none =>
      obtain ⟨n, _, _, hn⟩ := hd hp
      exact hn ▸ env.newV4_ne n
    | some u =>
      rw [hu u hp]
      rintro rfl
      exact (head hk hfor.front).grantLockUuid hp
  | finish hk hp _ hfor hu =>
    refine AllLocks.insert ht ⟨(ht _ _ hk).1, (ht _ _ hk).2.pop.take ?_⟩
    rw [hu]
    exact ((head hk hfor.front).composite _ hp).1
  | @advance g p c next rest l l' hk hp hr hfor hu hk' =>
    have hname := head hk hfor.front
    have hfirst : AllLocks _ (t.insert g.key (l.pop.take (p.terms g.key) g)) :=
      AllLocks.insert ht ⟨(ht _ _ hk).1, (ht _ _ hk).2.pop.take (hu ▸ (hname.composite _ hp).1)⟩
    refine AllLocks.insert hfirst ⟨(hname.composite _ hp).2.2 _ (by simp [hr]), LockState.Named.push ?_
      (hname.moved hp _ _)⟩
    exact hk'.elim (fun h => (hfirst _ _ h).2) fun h => .of_fresh h.2
  | @enqueue key p l first hk hp =>
    have hname : p.Named := by
      refine ⟨ha.1, fun hu => hg (hd.1 _ hu), fun c hc => ⟨Env.named hg (hd.2 c hc), ha.2 c hc, ?_⟩⟩
      rw [(hp c hc).2.2.2.1]
      exact ha.2 c hc
    refine AllLocks.insert ht ⟨(ht _ _ hk).1, ?_⟩
    split
    · exact (ht _ _ hk).2.pushFirst hname
    · exact (ht _ _ hk).2.push hname
  | withdraw hk =>
    exact AllLocks.insert ht ⟨(ht _ _ hk).1, (ht _ _ hk).2.requeue rfl rfl rfl
      fun _ h => .inl (List.mem_of_mem_filter h)⟩
  | release hk => exact AllLocks.insert ht ⟨(ht _ _ hk).1, (ht _ _ hk).2.removeForKind _ _⟩
  | wipe hk =>
    refine AllLocks.insert ht ⟨(ht _ _ hk).1, (ht _ _ hk).2.shrink ?_ ?_ ?_ fun _ h => h⟩ <;> simp [LockState.wipe]
  | detach u => exact AllLocks.map ht fun _ _ h => ⟨h.1, h.2.detachOwner u⟩
  | prune => exact AllLocks.erase ht

theorem Op.Named.names {op : Op} (h : op.Named) {a : Action} (ha : op.Allows a) : a.Names := by
  have hwake : ∀ {taken}, Broker.Wakes taken a → a.Names := by
    rintro _ (hw | hw) <;> cases a <;> first | exact trivial | exact False.elim hw
  cases op with
  | request client r overrides =>
    rcases ha with ha | ha
    · cases a with
      | create k l => exact h.2.1 k ha
      | enqueue k p f =>
        obtain ⟨_, hu, _, _, hall⟩ := ha
        exact ⟨hu ▸ h.1, fun c hc k hk => h.2.1 k (hall c hc k hk)⟩
      | _ => trivial
    · exact hwake ha
  | dropClient client => exact hwake ha
  | detachLockOwner u => cases a <;> first | exact trivial | exact False.elim ha
  | tickTtl now =>
    rcases ha with ha | ha
    · exact hwake ha
    · cases a <;> first | exact trivial | exact False.elim ha
  | _ => exact False.elim ha

theorem Broker.named_apply {env : Env} {b : Broker} (hb : b.locks.Named) {op : Op} (hop : op.Named) :
    (b.apply env op).locks.Named := by
  have hgiven : op.given ≠ some "" := by
    cases op with
    | request client r overrides => exact hop.2.2
    | _ => simp [Op.given]
  have hdoes : b.Does env op.given op.Allows (b.apply env op) := apply_does op
  exact hdoes.inv_drawn (fun t a t' ha hd hs ht => hs.named hgiven (hop.names ha) hd ht) hb

end LiveMutex
