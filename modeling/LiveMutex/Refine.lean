/-
The broker's operations are runs of the lock table machine. `Does` records
such a run: the actions, the tokens they give out, and that new lock uuids
are readings of `Uuid::new_v4` made during the operation.
-/
import LiveMutex.Machine

namespace LiveMutex

/-- The watermark once these tokens were given out. -/
def raised (watermark : Nat) (gs : List Grant) : Nat := gs.foldl (fun w g => Nat.max w g.token) watermark

@[simp] theorem raised_nil (w : Nat) : raised w [] = w := rfl

theorem raised_append (w : Nat) (gs hs : List Grant) : raised w (gs ++ hs) = raised (raised w gs) hs :=
  List.foldl_append

theorem le_raised (w : Nat) (gs : List Grant) : w ≤ raised w gs := by
  induction gs generalizing w with
  | nil => exact le_rfl
  | cons g gs ih => exact (Nat.le_max_left _ _).trans (ih _)

theorem token_le_raised {w : Nat} {gs : List Grant} {g : Grant} (h : g ∈ gs) : g.token ≤ raised w gs := by
  induction gs generalizing w with
  | nil => cases h
  | cons g' gs ih =>
    rcases List.mem_cons.1 h with rfl | h
    · exact (Nat.le_max_right _ _).trans (le_raised _ _)
    · exact ih h

/-- `u` is what a reading of `Uuid::new_v4` between `lo` and `hi` gave. -/
def Env.Drew (env : Env) (lo hi : Nat) (u : String) : Prop := ∃ n, lo ≤ n ∧ n < hi ∧ u = env.newV4 n

theorem Env.Drew.mono {env : Env} {lo hi lo' hi' : Nat} {u : String} (h : env.Drew lo hi u)
    (hlo : lo' ≤ lo) (hhi : hi ≤ hi') : env.Drew lo' hi' u := by
  obtain ⟨n, h1, h2, h3⟩ := h
  exact ⟨n, hlo.trans h1, h2.trans_le hhi, h3⟩

/-- The lock uuids an action brings in: `given` ones, or drawn between `lo` and `hi`. -/
def Action.Drawn (env : Env) (given : Option String) (lo hi : Nat) : Action → Prop
  | .grant g _ => given = some g.lockUuid ∨ given = none ∧ env.Drew lo hi g.lockUuid
  | .grantHead g p => p.grantLockUuid = none → env.Drew lo hi g.lockUuid
  | .enqueue _ p _ =>
    (∀ u, p.grantLockUuid = some u → given = some u) ∧
    ∀ c, p.kind = .composite c →
      given = some c.compositeLockUuid ∨ given = none ∧ env.Drew lo hi c.compositeLockUuid
  | _ => True

theorem Action.Drawn.mono {env : Env} {given : Option String} {lo hi lo' hi' : Nat} {a : Action}
    (h : a.Drawn env given lo hi) (hlo : lo' ≤ lo) (hhi : hi ≤ hi') : a.Drawn env given lo' hi' := by
  cases a with
  | grant g t => exact h.imp_right fun h => ⟨h.1, h.2.mono hlo hhi⟩
  | grantHead g p => exact fun hp => (h hp).mono hlo hhi
  | enqueue k p f => exact ⟨h.1, fun c hc => (h.2 c hc).imp_right fun h => ⟨h.1, h.2.mono hlo hhi⟩⟩
  | _ => trivial

namespace Broker

/-- What a run of the machine from `b` to `b'` did. -/
structure DoesAll (env : Env) (given : Option String) (ok : Action → Prop) (b b' : Broker)
    (as : List Action) : Prop where
  trace : Trace (Step b.config b.fencingWatermark) b.locks as b'.locks
  ok : ∀ a ∈ as, ok a
  drawn : ∀ a ∈ as, a.Drawn env given b.reads b'.reads
  grants : b'.grants = (as.flatMap Action.grants).reverse ++ b.grants
  watermark : b'.fencingWatermark = raised b.fencingWatermark (as.flatMap Action.grants)

/-- `b'` comes from `b` by a run of actions that are all `ok`. -/
structure Does (env : Env) (given : Option String) (ok : Action → Prop) (b b' : Broker) : Prop where
  config : b'.config = b.config
  reads : b.reads ≤ b'.reads
  run : ∃ as, b.DoesAll env given ok b' as

variable {env : Env} {given : Option String} {ok : Action → Prop} {b b' b'' : Broker}

/-- Nothing the machine sees changed. -/
theorem Does.same (hl : b'.locks = b.locks) (hc : b'.config = b.config) (hr : b.reads ≤ b'.reads)
    (hg : b'.grants = b.grants) (hw : b'.fencingWatermark = b.fencingWatermark) :
    b.Does env given ok b' where
  config := hc
  reads := hr
  run := ⟨[], by rw [hl]; exact .nil _, by simp, by simp, by simpa using hg, by simpa using hw⟩

theorem Does.refl : b.Does env given ok b := .same rfl rfl le_rfl rfl rfl

/-- A reading of the surroundings. -/
theorem Does.reading : b.Does env given ok { b with reads := b.reads + 1 } :=
  .same rfl rfl (Nat.le_succ _) rfl rfl

/-- One more action. -/
theorem Does.snoc {a : Action} (h : b.Does env given ok b')
    (hs : Step b'.config b'.fencingWatermark b'.locks a b''.locks) (ho : ok a)
    (hd : a.Drawn env given b.reads b''.reads) (hc : b''.config = b'.config) (hr : b'.reads ≤ b''.reads)
    (hg : b''.grants = a.grants.reverse ++ b'.grants)
    (hw : b''.fencingWatermark = raised b'.fencingWatermark a.grants) : b.Does env given ok b'' where
  config := hc.trans h.config
  reads := h.reads.trans hr
  run := by
    obtain ⟨as, ha⟩ := h.run
    refine ⟨as ++ [a], ha.trace.append (.single ?_), ?_, ?_, ?_, ?_⟩
    · rw [h.config] at hs
      exact hs.mono (ha.watermark ▸ le_raised _ _)
    · simpa [or_imp, forall_and] using ⟨ha.ok, ho⟩
    · simpa [or_imp, forall_and] using ⟨fun a hm => (ha.drawn a hm).mono le_rfl hr, hd⟩
    · rw [hg, ha.grants]; simp
    · rw [hw, ha.watermark, ← raised_append]; simp

/-- One action. -/
theorem Does.single {a : Action} (hs : Step b.config b.fencingWatermark b.locks a b'.locks) (ho : ok a)
    (hd : a.Drawn env given b.reads b'.reads) (hc : b'.config = b.config) (hr : b.reads ≤ b'.reads)
    (hg : b'.grants = a.grants.reverse ++ b.grants)
    (hw : b'.fencingWatermark = raised b.fencingWatermark a.grants) : b.Does env given ok b' :=
  Does.refl.snoc hs ho hd hc hr hg hw

theorem Does.trans (h₁ : b.Does env given ok b') (h₂ : b'.Does env given ok b'') :
    b.Does env given ok b'' where
  config := h₂.config.trans h₁.config
  reads := h₁.reads.trans h₂.reads
  run := by
    obtain ⟨as, ha⟩ := h₁.run
    obtain ⟨bs, hb⟩ := h₂.run
    refine ⟨as ++ bs, ?_, ?_, ?_, ?_, ?_⟩
    · refine ha.trace.append (hb.trace.mono fun t a t' h => ?_)
      rw [h₁.config] at h
      exact h.mono (ha.watermark ▸ le_raised _ _)
    · intro a hm
      exact (List.mem_append.1 hm).elim (ha.ok a) (hb.ok a)
    · intro a hm
      rcases List.mem_append.1 hm with hm | hm
      · exact (ha.drawn a hm).mono le_rfl h₂.reads
      · exact (hb.drawn a hm).mono h₁.reads le_rfl
    · rw [hb.grants, ha.grants]; simp
    · rw [hb.watermark, ha.watermark, List.flatMap_append, raised_append]

theorem Does.mono {ok' : Action → Prop} (h : b.Does env given ok b') (hle : ∀ a, ok a → ok' a) :
    b.Does env given ok' b' where
  config := h.config
  reads := h.reads
  run := by
    obtain ⟨as, ha⟩ := h.run
    exact ⟨as, { ha with ok := fun a hm => hle a (ha.ok a hm) }⟩

/-- An invariant of the steps that are `ok`, with the uuids they bring, survives
the run. -/
theorem Does.inv_drawn {I : LockTable → Prop} (h : b.Does env given ok b')
    (hstep : ∀ t a t', ok a → a.Drawn env given b.reads b'.reads →
      Step b.config b.fencingWatermark t a t' → I t → I t') (hi : I b.locks) : I b'.locks := by
  obtain ⟨as, ha⟩ := h.run
  exact ha.trace.inv (fun t a t' hm => hstep t a t' (ha.ok a hm) (ha.drawn a hm)) hi

theorem Does.inv {I : LockTable → Prop} (h : b.Does env given ok b')
    (hstep : ∀ t a t', ok a → Step b.config b.fencingWatermark t a t' → I t → I t') (hi : I b.locks) :
    I b'.locks :=
  h.inv_drawn (fun t a t' ho _ => hstep t a t' ho) hi

/-- A fold of runs is a run. -/
theorem Does.foldl {β : Type} {f : Broker → β → Broker} (hf : ∀ (b : Broker) (x : β), b.Does env given ok (f b x)) :
    ∀ (xs : List β) (b : Broker), b.Does env given ok (xs.foldl f b)
  | [], _ => .refl
  | x :: xs, b => (hf b x).trans (Does.foldl hf xs (f b x))

/-! ## The small operations -/

section

variable (env) (b) (key : String)

/-- `maybe_mark_idle` changes at most the key's own stamp. -/
theorem maybeMarkIdle_locks :
    (b.maybeMarkIdle env key).locks = b.locks ∨
    ∃ l at_, b.locks[key]? = some l ∧ at_.isSome = l.isIdle ∧
      (b.maybeMarkIdle env key).locks = b.locks.insert key { l with timestampEmptied := at_ } := by
  unfold maybeMarkIdle
  split
  · exact .inl rfl
  · rename_i l hl
    split
    · rename_i hi
      split
      · exact .inr ⟨l, some (env.now b.reads), hl, by simp [hi], rfl⟩
      · exact .inl rfl
    · rename_i hi
      split
      · exact .inr ⟨l, none, hl, by simpa using hi, rfl⟩
      · exact .inl rfl

/-- Nothing but the table and the readings. -/
theorem maybeMarkIdle_eq :
    b.maybeMarkIdle env key = { b with
      locks := (b.maybeMarkIdle env key).locks
      reads := (b.maybeMarkIdle env key).reads } := by
  unfold maybeMarkIdle
  split
  · rfl
  · split
    · split <;> rfl
    · split <;> rfl

@[simp] theorem maybeMarkIdle_clients : (b.maybeMarkIdle env key).clients = b.clients := by
  rw [maybeMarkIdle_eq]
@[simp] theorem maybeMarkIdle_deadlines : (b.maybeMarkIdle env key).deadlines = b.deadlines := by
  rw [maybeMarkIdle_eq]
@[simp] theorem maybeMarkIdle_sent : (b.maybeMarkIdle env key).sent = b.sent := by
  rw [maybeMarkIdle_eq]

theorem maybeMarkIdle_reads : b.reads ≤ (b.maybeMarkIdle env key).reads := by
  unfold maybeMarkIdle
  split
  · exact le_rfl
  · split
    · split
      · exact Nat.le_succ _
      · exact le_rfl
    · split <;> exact le_rfl

variable {b key} in
theorem maybeMarkIdle_get_ne {k : String} (h : key ≠ k) :
    (b.maybeMarkIdle env key).locks[k]? = b.locks[k]? := by
  rcases b.maybeMarkIdle_locks env key with he | ⟨l, at_, _, _, he⟩
  · rw [he]
  · rw [he, OrdMap.get_insert_ne _ _ h]

theorem maybeMarkIdle_does {ok : Action → Prop} (hok : ∀ at_, ok (.stamp key at_)) :
    b.Does env given ok (b.maybeMarkIdle env key) := by
  rcases b.maybeMarkIdle_locks env key with h | ⟨l, at_, hl, hs, h⟩
  · exact .same h (by rw [maybeMarkIdle_eq]) (b.maybeMarkIdle_reads env key) (by rw [maybeMarkIdle_eq])
      (by rw [maybeMarkIdle_eq])
  · refine .single (a := .stamp key at_) (h ▸ .stamp hl hs) (hok at_) trivial (by rw [maybeMarkIdle_eq])
      (b.maybeMarkIdle_reads env key) ?_ ?_
    · rw [maybeMarkIdle_eq]; rfl
    · rw [maybeMarkIdle_eq]; rfl

theorem lockOrDefault_get : (b.lockOrDefault env key).1.locks[key]? = some (b.lockOrDefault env key).2 := by
  unfold lockOrDefault
  split
  · rename_i h; exact h
  · simp

/-- A missing entry is made fresh, with a counter no token given out so far exceeds. -/
theorem lockOrDefault_of_none (h : b.locks[key]? = none) :
    (b.lockOrDefault env key).2.Fresh b.config b.fencingWatermark ∧
    (b.lockOrDefault env key).1 =
      { b.setLock key (b.lockOrDefault env key).2 with reads := b.reads + 1 } := by
  unfold lockOrDefault
  rw [h]
  dsimp only
  refine ⟨?_, rfl⟩
  have hcap : 1 ≤ b.config.cap := Nat.le_max_right _ _
  have hmax : 1 ≤ Nat.max (Nat.max (Nat.min b.config.maxLockHolders b.config.cap) 1) 1 ∧
      Nat.max (Nat.max (Nat.min b.config.maxLockHolders b.config.cap) 1) 1 ≤ b.config.cap := by
    refine ⟨Nat.le_max_right _ _, Nat.max_le.2 ⟨Nat.max_le.2 ⟨Nat.min_le_right _ _, hcap⟩, hcap⟩⟩
  have hdefault : Nat.max (Nat.max (Nat.min b.config.maxLockHolders b.config.cap) 1) 1 = b.config.defaultMax :=
    max_eq_left (Nat.le_max_right _ _)
  split
  · exact ⟨rfl, rfl, rfl, rfl, rfl, hmax.1, hmax.2, hdefault, le_rfl⟩
  · rename_i hw
    exact ⟨rfl, rfl, rfl, rfl, rfl, hmax.1, hmax.2, hdefault, not_lt.1 hw⟩

theorem lockOrDefault_of_some {l : LockState} (h : b.locks[key]? = some l) :
    b.lockOrDefault env key = (b, l) := by
  unfold lockOrDefault
  rw [h]

theorem lockOrDefault_does {ok : Action → Prop} (hok : ∀ l, ok (.create key l)) :
    b.Does env given ok (b.lockOrDefault env key).1 := by
  cases h : b.locks[key]? with
  | none =>
    obtain ⟨hf, he⟩ := b.lockOrDefault_of_none env key h
    rw [he]
    exact .single (.create h hf) (hok _) trivial rfl (Nat.le_succ _) rfl rfl
  | some l => rw [b.lockOrDefault_of_some env key h]; exact .refl

theorem lockOrDefault_eq :
    (b.lockOrDefault env key).1 = { b with
      locks := (b.lockOrDefault env key).1.locks
      reads := (b.lockOrDefault env key).1.reads } := by
  unfold lockOrDefault
  split <;> rfl

/-- The entry is replaced, whether it was there or not. -/
theorem setLock_lockOrDefault (l : LockState) :
    ((b.lockOrDefault env key).1.setLock key l).locks = b.locks.insert key l := by
  unfold lockOrDefault
  split
  · rfl
  · exact OrdMap.insert_insert ..

@[simp] theorem lockOrDefault_config : (b.lockOrDefault env key).1.config = b.config := by
  rw [lockOrDefault_eq]
@[simp] theorem lockOrDefault_clients : (b.lockOrDefault env key).1.clients = b.clients := by
  rw [lockOrDefault_eq]
@[simp] theorem lockOrDefault_deadlines : (b.lockOrDefault env key).1.deadlines = b.deadlines := by
  rw [lockOrDefault_eq]
@[simp] theorem lockOrDefault_sent : (b.lockOrDefault env key).1.sent = b.sent := by
  rw [lockOrDefault_eq]

theorem lockOrDefault_reads : b.reads ≤ (b.lockOrDefault env key).1.reads := by
  unfold lockOrDefault
  split
  · exact le_rfl
  · exact Nat.le_succ _

variable {b key} in
theorem lockOrDefault_get_ne {k : String} (h : key ≠ k) :
    (b.lockOrDefault env key).1.locks[k]? = b.locks[k]? := by
  unfold lockOrDefault
  split
  · rfl
  · exact OrdMap.get_insert_ne _ _ h

theorem unwrapOrNewV4_reads (given : Option String) : b.reads ≤ (b.unwrapOrNewV4 env given).1.reads := by
  unfold unwrapOrNewV4
  split
  · exact le_rfl
  · exact Nat.le_succ _

/-- The uuid is the given one, or drawn. -/
theorem unwrapOrNewV4_snd (given : Option String) :
    given = some (b.unwrapOrNewV4 env given).2 ∨
    given = none ∧ env.Drew b.reads (b.unwrapOrNewV4 env given).1.reads (b.unwrapOrNewV4 env given).2 := by
  unfold unwrapOrNewV4
  split
  · exact .inl rfl
  · exact .inr ⟨rfl, b.reads, le_rfl, Nat.lt_succ_self _, rfl⟩

theorem scheduleDeadline_reads (ttl : Option Duration) (u : String) (ks : List String) (kind : RwHoldKind)
    (c : ClientId) : b.reads ≤ (b.scheduleDeadline env ttl u ks kind c).reads := by
  unfold scheduleDeadline
  split
  · exact le_rfl
  · split
    · exact le_rfl
    · split <;> exact Nat.le_succ _

end

end Broker

end LiveMutex
