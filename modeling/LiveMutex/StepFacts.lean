/-
What one step of the lock table machine can do to the waiters and to the `max`
of a key: where a waiter that is there after the step came from, and where the
`max` of a key did.
-/
import LiveMutex.Waiting

namespace LiveMutex

namespace LockState

theorem take_max (l : LockState) (terms : Terms) (g : Grant) : (l.take terms g).max = l.max := by
  unfold take
  dsimp only
  rw [nextOrForcedFencingToken_eq]
  split <;> rfl

theorem removeForKind_max (l : LockState) (u : String) (kind : RwHoldKind) : (l.removeForKind u kind).max = l.max := by
  cases kind with
  | exclusive => rfl
  | read => rfl
  | write =>
    unfold removeForKind
    dsimp only
    split <;> rfl

end LockState

namespace Step

variable {cfg : BrokerConfig} {floor : Nat} {t t' : LockTable} {a : Action}

/-- The waiters of one entry are replaced by some of them. -/
theorem waits_of_insert {key q x : String} {l l' : LockState} {p : PendingRequest} (h : t[key]? = some l)
    (hw : LockTable.Waits (t.insert key l') q x p) (hq : ∀ e ∈ l'.queue.entries, e ∈ l.queue.entries) :
    t.Waits q x p := by
  rw [LockTable.waits_insert] at hw
  split at hw
  · rename_i he
    subst he
    exact ⟨l, h, hq _ hw⟩
  · exact hw

/-- A new entry has no waiters. -/
theorem waits_of_create {key q x : String} {l : LockState} {p : PendingRequest} (hl : l.Fresh cfg floor)
    (hw : LockTable.Waits (t.insert key l) q x p) : t.Waits q x p := by
  rw [LockTable.waits_insert] at hw
  split at hw
  · rw [hl.queue] at hw
    simp at hw
  · exact hw

/-- The head of the queue that a grant goes to waits there. -/
theorem waits_head {g : Grant} {p : PendingRequest} {l : LockState} (h : t[g.key]? = some l) (hg : g.For p l) :
    ∃ x, l.queue.front = some (x, p) ∧ t.Waits g.key x p := by
  obtain ⟨x, hx⟩ := hg.front
  exact ⟨x, hx, l, h, List.mem_of_mem_head? hx⟩

theorem mem_pop_take {l : LockState} {terms : Terms} {g : Grant} {e : String × PendingRequest}
    (h : e ∈ (l.pop.take terms g).queue.entries) : e ∈ l.queue.entries := by
  rw [LockState.take_queue] at h
  exact List.mem_of_mem_tail h

/-- **Where a waiter came from**: it was there before, has just been queued, or
is a composite that has moved on to this key. -/
theorem waits (h : Step cfg floor t a t') {q x : String} {p : PendingRequest} (hw : t'.Waits q x p) :
    t.Waits q x p ∨ (∃ first, a = .enqueue q p first ∧ p.Starts q ∧ x = p.requestUuid) ∨
    ∃ g p₀ c y rest, a = .advance g p₀ c q ∧ t.Waits g.key y p₀ ∧ p₀.kind = .composite c ∧
      c.remainingKeys = g.key :: q :: rest ∧ p = p₀.moved (c.advance g.key g.token) ∧ x = p₀.requestUuid := by
  cases h with
  | create hk hl => exact .inl (waits_of_create hl hw)
  | setMax hk _ _ => exact .inl (waits_of_insert hk hw fun _ he => he)
  | stamp hk _ => exact .inl (waits_of_insert hk hw fun _ he => he)
  | grant hk _ _ => exact .inl (waits_of_insert hk hw fun e he => by simpa using he)
  | grantHead hk _ hg _ => exact .inl (waits_of_insert hk hw fun e he => mem_pop_take he)
  | finish hk _ _ hg _ => exact .inl (waits_of_insert hk hw fun e he => mem_pop_take he)
  | @advance g p₀ c next rest l l' hk hp hr hg hu hk' =>
    obtain ⟨y, hy, hwy⟩ := waits_head hk hg
    rw [LockTable.waits_insert] at hw
    split at hw
    · rename_i he
      subst he
      rcases LinkedQueue.mem_pushBack hw with hw | hw
      · -- an entry made for it has no waiters of its own
        rcases hk' with hk' | ⟨_, hf⟩
        · exact .inl (waits_of_insert hk ⟨l', hk', hw⟩ fun e he => mem_pop_take he)
        · rw [hf.queue] at hw
          simp at hw
      · obtain ⟨rfl, rfl⟩ := Prod.mk.inj hw
        exact .inr (.inr ⟨g, p₀, c, y, rest, rfl, hwy, hp, hr, rfl, rfl⟩)
    · exact .inl (waits_of_insert hk hw fun e he => mem_pop_take he)
  | @enqueue key p' l first hk hp =>
    rw [LockTable.waits_insert] at hw
    split at hw
    · rename_i he
      subst he
      have hmem : (x, p) ∈ l.queue.entries ∨ (x, p) = (p'.requestUuid, p') := by
        split at hw
        · exact LinkedQueue.mem_pushFront hw
        · exact LinkedQueue.mem_pushBack hw
      rcases hmem with hmem | hmem
      · exact .inl ⟨l, hk, hmem⟩
      · obtain ⟨rfl, rfl⟩ := Prod.mk.inj hmem
        exact .inr (.inl ⟨first, rfl, hp, rfl⟩)
    · exact .inl hw
  | withdraw hk => exact .inl (waits_of_insert hk hw fun e he => List.mem_of_mem_filter he)
  | release hk => exact .inl (waits_of_insert hk hw fun e he => by simpa using he)
  | wipe hk => exact .inl (waits_of_insert hk hw fun _ he => he)
  | detach =>
    obtain ⟨l, hl, hm⟩ := hw
    rw [Std.ExtTreeMap.getElem?_map] at hl
    obtain ⟨l₀, hl₀, rfl⟩ := Option.map_eq_some_iff.1 hl
    exact .inl ⟨l₀, hl₀, hm⟩
  | prune hk hi =>
    obtain ⟨l, hl, hm⟩ := hw
    rw [OrdMap.get_erase] at hl
    split at hl
    · cases hl
    · exact .inl ⟨l, hl, hm⟩

theorem max_of_insert {key k : String} {l l' l₁ : LockState} (h : t[key]? = some l)
    (hk : (t.insert key l')[k]? = some l₁) (hm : l'.max = l.max) : ∃ l₀, t[k]? = some l₀ ∧ l₁.max = l₀.max := by
  rw [OrdMap.get_insert] at hk
  split at hk
  · rename_i he
    subst he
    obtain rfl := Option.some.inj hk
    exact ⟨l, h, hm⟩
  · exact ⟨l₁, hk, rfl⟩

/-- **Where the `max` of a key came from**: it is as before, that of a new
entry, or has just been set. -/
theorem max_cases (h : Step cfg floor t a t') {k : String} {l₁ : LockState} (hk : t'[k]? = some l₁) :
    (∃ l₀, t[k]? = some l₀ ∧ l₁.max = l₀.max) ∨ t[k]? = none ∧ l₁.max = cfg.defaultMax ∨
    ∃ m, a = .setMax k m ∧ l₁.max = m := by
  cases h with
  | @create key l hn hl =>
    rw [OrdMap.get_insert] at hk
    split at hk
    · rename_i he
      subst he
      obtain rfl := Option.some.inj hk
      exact .inr (.inl ⟨hn, hl.max_eq⟩)
    · exact .inl ⟨l₁, hk, rfl⟩
  | @setMax key l m hl _ _ =>
    rw [OrdMap.get_insert] at hk
    split at hk
    · rename_i he
      subst he
      obtain rfl := Option.some.inj hk
      exact .inr (.inr ⟨m, rfl, rfl⟩)
    · exact .inl ⟨l₁, hk, rfl⟩
  | stamp hl _ => exact .inl (max_of_insert hl hk rfl)
  | grant hl _ _ => exact .inl (max_of_insert hl hk (LockState.take_max _ _ _))
  | grantHead hl _ _ _ => exact .inl (max_of_insert hl hk (LockState.take_max _ _ _))
  | finish hl _ _ _ _ => exact .inl (max_of_insert hl hk (LockState.take_max _ _ _))
  | @advance g p c next rest l l' hl _ _ _ _ hl' =>
    rw [OrdMap.get_insert] at hk
    split at hk
    · rename_i he
      subst he
      obtain rfl := Option.some.inj hk
      rcases hl' with hl' | ⟨hn, hf⟩
      · obtain ⟨l₀, hl₀, hm⟩ := max_of_insert hl hl' (LockState.take_max _ _ _)
        exact .inl ⟨l₀, hl₀, hm⟩
      · refine .inr (.inl ⟨?_, hf.max_eq⟩)
        rw [OrdMap.get_insert] at hn
        split at hn
        · cases hn
        · exact hn
    · exact .inl (max_of_insert hl hk (LockState.take_max _ _ _))
  | @enqueue key p l first hl _ =>
    refine .inl (max_of_insert hl hk ?_)
    split <;> rfl
  | withdraw hl => exact .inl (max_of_insert hl hk rfl)
  | release hl => exact .inl (max_of_insert hl hk (LockState.removeForKind_max _ _ _))
  | wipe hl => exact .inl (max_of_insert hl hk rfl)
  | detach =>
    rw [Std.ExtTreeMap.getElem?_map] at hk
    obtain ⟨l₀, hl₀, rfl⟩ := Option.map_eq_some_iff.1 hk
    exact .inl ⟨l₀, hl₀, rfl⟩
  | prune hl _ =>
    rw [OrdMap.get_erase] at hk
    split at hk
    · cases hk
    · exact .inl ⟨l₁, hk, rfl⟩

end Step

end LiveMutex
