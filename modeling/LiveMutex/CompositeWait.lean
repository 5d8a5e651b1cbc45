/-
Composite requests that wait: what is known of each, and that they cannot
wait for one another in a circle. A composite takes its keys in sorted order
and waits on the first it does not have, so every key it has is smaller than
the one it waits on.
-/
import Mathlib.Data.Fintype.EquivFin
import Mathlib.Data.Fintype.Lattice
import LiveMutex.Sample

namespace LiveMutex

/-- A composite waiter as it stands on `key`: a sorted list of keys, those
before `key` granted, each with its token, the rest to come. -/
structure Composite.Wf (c : Composite) (key : String) : Prop where
  sorted : c.allKeys.Pairwise (· < ·)
  length_le : c.allKeys.length ≤ maxCompositeKeys
  split : c.allKeys = c.grantedKeys ++ c.remainingKeys
  head : c.remainingKeys.head? = some key
  tokens : ∀ k, k ∈ c.grantedTokens ↔ k ∈ c.grantedKeys

namespace Composite.Wf

variable {c : Composite} {key : String}

theorem remaining_eq (h : c.Wf key) : c.remainingKeys = key :: c.remainingKeys.tail := by
  have := h.head
  cases hr : c.remainingKeys with
  | nil => rw [hr] at this; cases this
  | cons k rest => rw [hr] at this; obtain rfl := Option.some.inj this; rfl

/-- A key it has is smaller than the key it waits on. -/
theorem lt_of_granted (h : c.Wf key) {k : String} (hk : k ∈ c.grantedKeys) : k < key := by
  have hs := h.sorted
  rw [h.split, List.pairwise_append] at hs
  exact hs.2.2 k hk key (by rw [h.remaining_eq]; exact List.mem_cons_self)

theorem of_starts {p : PendingRequest} (h : p.Starts key) (hp : p.kind = .composite c) : c.Wf key := by
  obtain ⟨hs, hlen, hhead, hr, hg, ht⟩ := h c hp
  exact
    { sorted := hs
      length_le := hlen
      split := by rw [hg, hr]; rfl
      head := by rw [hr, hhead]
      tokens := by simp [hg, ht] }

/-- It gets its key and goes to the next. -/
theorem advance (h : c.Wf key) {next : String} {rest : List String}
    (hr : c.remainingKeys = key :: next :: rest) (token : Nat) : (c.advance key token).Wf next where
  sorted := h.sorted
  length_le := h.length_le
  split := by
    rw [Composite.advance, h.split, hr]
    simp
  head := by simp [Composite.advance, hr]
  tokens k := by
    simp only [Composite.advance, Std.ExtTreeMap.mem_insert, Std.LawfulEqCmp.compare_eq_iff_eq, h.tokens k,
      List.mem_append, List.mem_singleton]
    rw [or_comm, eq_comm]

end Composite.Wf

/-- Every composite in a queue is well formed for the key of that queue. -/
def LockState.CompositesWf (key : String) (l : LockState) : Prop :=
  ∀ e ∈ l.queue.entries, ∀ c, e.2.kind = .composite c → c.Wf key

namespace LockState.CompositesWf

variable {key : String} {l l' : LockState}

/-- No waiter that was not there before. -/
theorem shrink (h : l.CompositesWf key) (hq : ∀ e ∈ l'.queue.entries, e ∈ l.queue.entries) :
    l'.CompositesWf key := fun e he => h e (hq e he)

theorem kept (cfg : BrokerConfig) : Kept cfg (fun _ => True) LockState.CompositesWf where
  fresh hf := by
    intro e he
    simp [hf.queue] at he
  setMax h _ _ := h
  stamp h _ := h
  take h _ _ := h.shrink fun e he => by simpa using he
  pop h := h.shrink fun e he => List.mem_of_mem_tail he
  push h hp _ e he c hc := by
    rcases LinkedQueue.mem_pushBack he with he | rfl
    · exact h e he c hc
    · exact .of_starts hp hc
  pushFirst h hp _ e he c hc := by
    rcases LinkedQueue.mem_pushFront he with he | rfl
    · exact h e he c hc
    · exact .of_starts hp hc
  moved h hq hp hr h' e he c' hc' := by
    rcases LinkedQueue.mem_pushBack he with he | rfl
    · exact h' e he c' hc'
    · obtain rfl := PendingKind.composite.inj hc'
      exact (h _ (List.mem_of_mem_head? hq) _ hp).advance hr _
  removeWaiter h := h.shrink fun e he => List.mem_of_mem_filter he
  removeForKind h := h.shrink fun e he => by simpa using he
  wipe h := h
  detachOwner h := h

theorem restore {cfg : BrokerConfig} (h : l.CompositesWf key) (now : Instant) :
    ((l.snapshot key).restore cfg.cap now).CompositesWf key := by
  intro e he c hc
  obtain ⟨e', he', rfl⟩ := mem_restore_queue he
  exact h e' he' c hc

end LockState.CompositesWf

/-- The composite `c` waits in the queue of `key`. -/
def Broker.CompositeWaits (b : Broker) (key : String) (c : Composite) : Prop :=
  ∃ l x p, b.locks[key]? = some l ∧ (x, p) ∈ l.queue.entries ∧ p.kind = .composite c

theorem Broker.Reachable.compositeWf {cfg : BrokerConfig} {b : Broker} (h : Reachable cfg b) {key : String}
    {c : Composite} (hc : b.CompositeWaits key c) : c.Wf key := by
  obtain ⟨l, x, p, hl, hm, hp⟩ := hc
  exact (LockState.CompositesWf.kept cfg).reachable (fun _ _ now h => h.restore now) h key l hl _ hm c hp

/-- **Composite requests do not deadlock.** In every reachable state a
composite waiter is well formed for the key it stands on, and no circle of
them has each standing on a key the next one has. -/
theorem Broker.Reachable.composite_waiters_acyclic {cfg : BrokerConfig} {b : Broker} (h : Reachable cfg b) :
    (∀ key c, b.CompositeWaits key c → c.allKeys.Pairwise (· < ·) ∧
      c.allKeys = c.grantedKeys ++ c.remainingKeys ∧ c.remainingKeys.head? = some key ∧
      ∀ k, k ∈ c.grantedTokens ↔ k ∈ c.grantedKeys) ∧
    ∀ (n : Nat) (key : Fin (n + 1) → String) (c : Fin (n + 1) → Composite),
      (∀ i, b.CompositeWaits (key i) (c i)) → ¬∀ i, key i ∈ (c (i + 1)).grantedKeys := by
  refine ⟨fun key c hc => ?_, fun n key c hc hcycle => ?_⟩
  · have hw := h.compositeWf hc
    exact ⟨hw.sorted, hw.split, hw.head, hw.tokens⟩
  · -- the waiter on the greatest key is waited for by nobody further on
    obtain ⟨i, hi⟩ := Finite.exists_max key
    exact absurd ((h.compositeWf (hc (i + 1))).lt_of_granted (hcycle i)) (not_lt.2 (hi (i + 1)))

/-- With a composite that has `a` and waits on `b`. -/
theorem Broker.Reachable.composite_waiters_acyclic_one :
    ∃ c, (Sample.after [Sample.ask 1 (Sample.lock "r" "b"),
        Sample.ask 2 (Sample.lockAll "s" ["b", "a"])]).CompositeWaits "b" c ∧ c.grantedKeys = ["a"] ∧
      c.allKeys.Pairwise (· < ·) ∧ c.allKeys = c.grantedKeys ++ c.remainingKeys ∧
      c.remainingKeys.head? = some "b" ∧ ∀ k, k ∈ c.grantedTokens ↔ k ∈ c.grantedKeys := by
  let c : Composite :=
    { allKeys := ["a", "b"], remainingKeys := ["b"], grantedKeys := ["a"],
      grantedTokens := (∅ : OrdMap String Nat).insert "a" 2, compositeLockUuid := "uuu" }
  have hq : ((Sample.after [Sample.ask 1 (Sample.lock "r" "b"),
      Sample.ask 2 (Sample.lockAll "s" ["b", "a"])]).locks["b"]?.map fun l =>
        l.queue.entries.map fun e => e.2.kind) = some [.composite c] := by
    decide +kernel
  obtain ⟨l, hl, hkinds⟩ := Option.map_eq_some_iff.1 hq
  obtain ⟨⟨x, p⟩, hm, hp⟩ := List.mem_map.1 (hkinds ▸ List.mem_singleton_self (PendingKind.composite c))
  have hwaits : (Sample.after [Sample.ask 1 (Sample.lock "r" "b"),
      Sample.ask 2 (Sample.lockAll "s" ["b", "a"])]).CompositeWaits "b" c := ⟨l, x, p, hl, hm, hp⟩
  exact ⟨c, hwaits, rfl, (Broker.Reachable.composite_waiters_acyclic (Sample.reachable_after _)).1 "b" c hwaits⟩

end LiveMutex
