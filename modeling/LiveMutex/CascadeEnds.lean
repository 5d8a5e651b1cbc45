/-
The cascade of `try_grant_next` ends, whatever the queues hold.

In the source the three functions call one another without a bound. Here a
call that returns is a finite tree: what `try_grant_once` does with its
recursive call is read off by giving it an arbitrary one. The model's cascade
counts its depth down instead; it starts with one more than the keys all
waiters together still need, every grant needs one key less, and so it computes
exactly what the calls of the source return.
-/
import LiveMutex.Wakeup

namespace LiveMutex

/-- The call `try_grant_next(state, key)`, made in `b`, returns and leaves `b'`. -/
inductive Broker.GrantReturns (env : Env) : Broker → String → Broker → Prop
  /-- Nothing can be granted and the loop ends. -/
  | stop {b b₁ : Broker} {key : String} (once : ∀ next, b.tryGrantOnce env next key = (b₁, false)) :
      GrantReturns env b key (b₁.maybeMarkIdle env key)
  /-- A grant that calls nothing; the loop goes on. -/
  | again {b b₁ b' : Broker} {key : String} (once : ∀ next, b.tryGrantOnce env next key = (b₁, true))
      (rest : GrantReturns env b₁ key b') : GrantReturns env b key b'
  /-- A composite moves on to `nextKey`, where `try_grant_next` is called; then the loop goes on. -/
  | onward {b b₁ b₂ b' : Broker} {key nextKey : String}
      (once : ∀ next, b.tryGrantOnce env next key = (next b₁ nextKey, true))
      (call : GrantReturns env b₁ nextKey b₂) (rest : GrantReturns env b₂ key b') : GrantReturns env b key b'

namespace Broker

variable {env : Env} {b b' : Broker} {key : String} {l : LockState} {p : PendingRequest}

/-- What `try_grant_once` does does not depend on the recursive call, the call itself apart. -/
theorem CanGrant.once (env : Env) (h : b.CanGrant key l p) (next : Broker → String → Broker) :
    b.tryGrantOnce env next key =
      ((b.grantHead env key l p).2.elim (b.grantHead env key l p).1 (next (b.grantHead env key l p).1), true) := by
  rcases b.tryGrantOnce_cases env next key with ⟨_, hstuck⟩ | ⟨l', p', hc, he⟩
  · exact absurd h (hstuck l p)
  · -- the entry and the head of its queue are the same ones
    obtain rfl : l' = l := Option.some.inj (hc.get.symm.trans h.get)
    obtain ⟨x, hx⟩ := hc.front
    obtain ⟨y, hy⟩ := h.front
    obtain rfl : p' = p := congrArg Prod.snd (Option.some.inj (hx.symm.trans hy))
    exact he

theorem Settled.once (h : b.Settled key) (next : Broker → String → Broker) :
    b.tryGrantOnce env next key = (b, false) := by
  rcases b.tryGrantOnce_cases env next key with ⟨he, _⟩ | ⟨l, p, hc, _⟩
  · exact he
  · exact absurd hc (h l p)

/-- A grant needs one key less than before. -/
theorem CanGrant.weight_lt (env : Env) (h : b.CanGrant key l p) :
    (b.grantHead env key l p).1.weight < b.weight := by
  have hdoes : b.Does env none Action.Cascade (b.grantHead env key l p).1 := grantHead_does h
  have hle := hdoes.weight_le
  rw [grantHead_grants h, List.length_cons] at hle
  omega

theorem tryGrantLoop_weight_le (env : Env) (fuel : Nat) (b : Broker) (key : String) :
    (b.tryGrantLoop env fuel key).weight ≤ b.weight := by
  have hdoes := tryGrantLoop_does env none fuel b key
  obtain ⟨as, has⟩ := hdoes.run
  have hle := hdoes.weight_le
  rw [has.grants, List.length_append] at hle
  omega

/-- Enough depth: the call returns what the counted cascade computes. -/
theorem tryGrantLoop_returns : ∀ (fuel : Nat) (b : Broker) (key : String), b.weight < fuel →
    GrantReturns env b key (b.tryGrantLoop env fuel key)
  | 0, _, _, hw => absurd hw (Nat.not_lt_zero _)
  | fuel + 1, b, key, hw => by
    unfold tryGrantLoop
    dsimp only
    rcases b.tryGrantOnce_cases env (tryGrantLoop env fuel) key with ⟨he, hstuck⟩ | ⟨l, p, hc, he⟩
    · rw [he]
      exact .stop (Settled.once hstuck)
    · rw [he]
      have honce := hc.once env
      have hlt : (b.grantHead env key l p).1.weight < fuel := by
        have := hc.weight_lt env
        omega
      cases hn : (b.grantHead env key l p).2 with
      | none =>
        rw [hn] at honce
        exact .again honce (tryGrantLoop_returns fuel _ key hlt)
      | some next =>
        -- the inner call and the rest of the loop both start with a smaller weight
        rw [hn] at honce
        have hle := tryGrantLoop_weight_le env fuel (b.grantHead env key l p).1 next
        exact .onward honce (tryGrantLoop_returns fuel _ next hlt)
          (tryGrantLoop_returns fuel _ key (Nat.lt_of_le_of_lt hle hlt))

/-- A call that returns is computed by every cascade with depth enough. -/
theorem GrantReturns.tryGrantLoop_eq (h : GrantReturns env b key b') :
    ∃ depth, ∀ fuel, depth ≤ fuel → b.tryGrantLoop env fuel key = b' := by
  induction h with
  | stop once =>
    refine ⟨1, fun fuel hfuel => ?_⟩
    obtain ⟨fuel, rfl⟩ : ∃ n, fuel = n + 1 := ⟨fuel - 1, by omega⟩
    simp [tryGrantLoop, once]
  | again once _ ih =>
    obtain ⟨depth, hdepth⟩ := ih
    refine ⟨depth + 1, fun fuel hfuel => ?_⟩
    obtain ⟨fuel, rfl⟩ : ∃ n, fuel = n + 1 := ⟨fuel - 1, by omega⟩
    simp [tryGrantLoop, once, hdepth fuel (by omega)]
  | onward once _ _ ihcall ihrest =>
    obtain ⟨d₁, h₁⟩ := ihcall
    obtain ⟨d₂, h₂⟩ := ihrest
    refine ⟨max d₁ d₂ + 1, fun fuel hfuel => ?_⟩
    obtain ⟨fuel, rfl⟩ : ∃ n, fuel = n + 1 := ⟨fuel - 1, by omega⟩
    simp [tryGrantLoop, once, h₁ fuel (by omega), h₂ fuel (by omega)]

theorem GrantReturns.det {b₁ b₂ : Broker} (h₁ : GrantReturns env b key b₁)
    (h₂ : GrantReturns env b key b₂) : b₁ = b₂ := by
  obtain ⟨d₁, e₁⟩ := h₁.tryGrantLoop_eq
  obtain ⟨d₂, e₂⟩ := h₂.tryGrantLoop_eq
  rw [← e₁ (max d₁ d₂) (by omega), e₂ (max d₁ d₂) (by omega)]

/-- **The grant cascade ends.** In every state and on every key the calls of
`try_grant_next` return, with the one result the model computes, after at most
as many grants as all waiters together still need keys. -/
theorem tryGrantNext_returns (env : Env) (b : Broker) (key : String) :
    (∀ b', GrantReturns env b key b' ↔ b' = b.tryGrantNext env key) ∧
    (b.tryGrantNext env key).grants.length ≤ b.grants.length + b.weight := by
  have hreturns : GrantReturns env b key (b.tryGrantNext env key) :=
    tryGrantLoop_returns _ b key (Nat.lt_succ_self _)
  refine ⟨fun b' => ⟨fun h => h.det hreturns, fun h => h ▸ hreturns⟩, ?_⟩
  have hdoes : b.Does env none Action.Cascade (b.tryGrantNext env key) := tryGrantNext_does env b key
  have hle := hdoes.weight_le
  omega

end Broker

end LiveMutex
