/-
A lock that is waited for is its waiter's alone. Under the uuid a waiter has reserved
no other request waits, no deadline runs, no handle notes it but its client's, and
nothing is held but the keys it was granted so far. So what is granted to waiters never
takes the place of a hold that is there, and never brings back one that has ended.
-/
import LiveMutex.Consistent

namespace LiveMutex

namespace Ledger

variable {v v' : Ledger} {env : Env}

/-- What is on record under the uuids that waiters have reserved. -/
structure Reserves (v : Ledger) : Prop where
  waiters {k x k' x' u : String} {p p' : PendingRequest} : v.Waits k x p → v.Waits k' x' p' → p.reserved = some u →
    p'.reserved = some u → k = k' ∧ x = x'
  due {k x : String} {p : PendingRequest} {dk : DeadlineKey} {e : DeadlineEntry} : v.Waits k x p →
    v.due dk = some e → p.reserved ≠ some e.lockUuid
  /-- the handle is its client's, and notes the queue it stands in -/
  held {c : ClientId} {h : ClientHandle} {u k x : String} {ko : KeysOfLock} {p : PendingRequest} : v.handle c = some h →
    h.heldLockUuids[u]? = some ko → v.Waits k x p → p.reserved = some u →
    c = p.client ∧ (k, x) ∈ h.pendingRequestUuids
  one : v.OneDue

/-- Entries go. -/
theorem Reserves.sheds (h : v.Reserves) (hs : v.Sheds v') : v'.Reserves where
  waiters hw hw' hu hu' := by
    obtain ⟨p₀, hw, hk, hg, _⟩ := hs.waits hw
    obtain ⟨p₀', hw', hk', hg', _⟩ := hs.waits hw'
    exact h.waiters hw hw' (reserved_congr hk hg ▸ hu) (reserved_congr hk' hg' ▸ hu')
  due hw he hu := by
    obtain ⟨p₀, hw, hk, hg, _⟩ := hs.waits hw
    obtain ⟨dk₀, e₀, he, heq, _⟩ := hs.due he
    exact h.due hw he (by rw [← heq, ← reserved_congr hk hg, hu])
  held hc hn hw hu := by
    obtain ⟨p₀, hw, hk, hg, hcl⟩ := hs.waits hw
    obtain ⟨h₀, hc, hn, hp⟩ := hs.handle hc hn
    rw [hcl, hp]
    exact h.held hc hn hw (reserved_congr hk hg ▸ hu)
  one := hs.one h.one

/-- A waiter leaves with its uuid, or a request is granted on arrival under one that is not on record: what comes is
under a uuid nobody waits under. -/
theorem Reserves.grow (h : v.Reserves) {u : String} {d : Option (DeadlineKey × DeadlineEntry)}
    (hq : ∀ {k x p}, v'.Waits k x p → v.Waits k x p) (hfree : ∀ {k x p}, v'.Waits k x p → p.reserved ≠ some u)
    (hundated : ∀ {dk e}, v.due dk = some e → e.lockUuid ≠ u) (hdu : ∀ e ∈ d, e.2.lockUuid = u)
    (hd : ∀ {dk e}, v'.due dk = some e → v.due dk = some e ∨ (dk, e) ∈ d)
    (hh : ∀ {c h'}, v'.handle c = some h' → ∃ h : ClientHandle, v.handle c = some h ∧
      (∀ {w : String} {ko}, h'.heldLockUuids[w]? = some ko → h.heldLockUuids[w]? = some ko ∨ w = u) ∧
      ∀ {k x p}, v'.Waits k x p → (k, x) ∈ h.pendingRequestUuids → (k, x) ∈ h'.pendingRequestUuids) : v'.Reserves where
  waiters hw hw' hu hu' := h.waiters (hq hw) (hq hw') hu hu'
  due hw he hu := by
    rcases hd he with he | he
    · exact h.due (hq hw) he hu
    · exact hfree hw (hu.trans (congrArg some (hdu _ he)))
  held hc hn hw hu := by
    obtain ⟨h₀, hc₀, hold, hpend⟩ := hh hc
    rcases hold hn with hn | rfl
    · obtain ⟨hcl, hp⟩ := h.held hc₀ hn (hq hw) hu
      exact ⟨hcl, hpend hw hp⟩
    · exact absurd hu (hfree hw)
  one dk dk' e e' he he' hu := by
    rcases hd he with he | he <;> rcases hd he' with he' | he'
    · exact h.one dk dk' e e' he he' hu
    · exact absurd (hu.trans (hdu _ he')) (hundated he)
    · exact absurd (hu.symm.trans (hdu _ he)) (hundated he')
    · exact (Prod.mk.inj (Option.some.inj (he.symm.trans he'))).1

/-- A request is queued under a uuid that is not on record, or under none. -/
theorem Reserves.enqueue (h : v.Reserves) {key : String} {p : PendingRequest} {first : Bool}
    (hnew : ∀ u, p.reserved = some u → ¬v.Known u) : (v.enqueue key p first).Reserves := by
  have hold : ∀ {k x q u}, v.Waits k x q → q.reserved = some u → p.reserved ≠ some u :=
    fun hw hu hp => hnew _ hp ⟨_, _, .waiter hw hu⟩
  refine ⟨fun hw hw' hu hu' => ?_, fun hw he hu => ?_, fun {c h' u k x ko q} hc hn hw hu => ?_, h.one⟩
  · rcases waits_of_push hw with h₁ | ⟨rfl, rfl, rfl⟩ <;> rcases waits_of_push hw' with h₂ | ⟨rfl, rfl, rfl⟩
    · exact h.waiters h₁ h₂ hu hu'
    · exact absurd hu' (hold h₁ hu)
    · exact absurd hu (hold h₂ hu')
    · exact ⟨rfl, rfl⟩
  · rcases waits_of_push hw with hw | ⟨rfl, rfl, rfl⟩
    · exact h.due hw he hu
    · exact hnew _ hu ⟨_, _, .deadline he rfl⟩
  · -- the handle may note one more queue
    obtain ⟨h₀, hc₀, hn₀, hp₀⟩ : ∃ h₀, v.handle c = some h₀ ∧ h₀.heldLockUuids[u]? = some ko ∧
        h₀.pendingRequestUuids ⊆ h'.pendingRequestUuids := by
      rcases handle_of_note hc with hc₀ | ⟨_, h₀, hc₀, rfl⟩
      · exact ⟨h', hc₀, hn, fun _ => id⟩
      · exact ⟨h₀, hc₀, hn, List.subset_append_left _ _⟩
    rcases waits_of_push hw with hw | ⟨rfl, rfl, rfl⟩
    · obtain ⟨hcl, hp⟩ := h.held hc₀ hn₀ hw hu
      exact ⟨hcl, hp₀ hp⟩
    · exact absurd ⟨_, _, .handle hc₀ hn₀⟩ (hnew _ hu)

/-- Once the head has left its queue, nobody waits under its uuid. -/
theorem Reserves.pop_free (h : v.Reserves) (hv : v.Distinct) {key x u : String} {p : PendingRequest}
    {rest : List (String × PendingRequest)} (hq : v.queue key = (x, p) :: rest) (hp : p.reserved = some u)
    {k y : String} {q : PendingRequest} (hw : (v.pop key).Waits k y q) : q.reserved ≠ some u := by
  intro hu
  obtain ⟨hw, hne⟩ := (waits_pop hv hq).1 hw
  exact hne (h.waiters hw (waits_head hq) hu hp)

/-- The uuid the head gets its key under is its own, or one that nobody knew. -/
theorem Reserves.head_free (h : v.Reserves) (hv : v.Agrees env) (hd : v.Distinct) {key x u : String} {n : Nat}
    {p : PendingRequest} {rest : List (String × PendingRequest)} (hq : v.queue key = (x, p) :: rest)
    (hu : env.Gives p.reserved v.reads n u) :
    (∀ {k y q}, (v.pop key).Waits k y q → q.reserved ≠ some u) ∧ ∀ {dk e}, v.due dk = some e → e.lockUuid ≠ u := by
  rcases hu with hu | ⟨_, i, hlo, _, rfl⟩
  · exact ⟨h.pop_free hd hq hu, fun he heq => h.due (waits_head hq) he (heq ▸ hu)⟩
  · exact ⟨fun hw hq' => hv.undrawn hlo ⟨_, _, .waiter ((pop_sublist v key _).subset hw) hq'⟩,
      fun he heq => hv.undrawn hlo ⟨_, _, .deadline he heq⟩⟩

/-- What the handles note after the head was handed a key. -/
theorem handle_of_hand (hv : v.Distinct) {key u : String} {token : Nat} {p : PendingRequest}
    {rest : List (String × PendingRequest)} (hq : v.queue key = (p.requestUuid, p) :: rest) {c : ClientId}
    {h' : ClientHandle} (hc : (v.hand key p u token).handle c = some h') : ∃ h : ClientHandle, v.handle c = some h ∧
      (∀ {w : String} {ko}, h'.heldLockUuids[w]? = some ko → h.heldLockUuids[w]? = some ko ∨ w = u) ∧
      ∀ {k x q}, (v.pop key).Waits k x q → (k, x) ∈ h.pendingRequestUuids → (k, x) ∈ h'.pendingRequestUuids := by
  rcases handle_of_note hc with hc₀ | ⟨_, h, hc₀, rfl⟩
  · exact ⟨h', hc₀, .inl, fun _ => id⟩
  · refine ⟨h, hc₀, fun {w ko} hn => ?_, fun {k x q} hw hp => ?_⟩
    · change (h.heldLockUuids.insert u (p.wants key))[w]? = some ko at hn
      rw [OrdMap.get_insert] at hn
      split at hn
      · rename_i he
        exact .inr he.symm
      · exact .inl hn
    · obtain ⟨_, hne⟩ := (waits_pop hv hq).1 hw
      refine List.mem_filter.2 ⟨hp, ?_⟩
      rw [Bool.not_eq_true', ← Bool.not_eq_true, Bool.and_eq_true, decide_eq_true_eq, decide_eq_true_eq]
      exact hne

theorem Grants.reserves (h : v.Grants env v') (hv : v.Agrees env) (hd : v.Distinct) (hr : v.Reserves) :
    v'.Reserves := by
  cases h with
  | idle _ h =>
    subst h
    exact hr.sheds (.asked v _)
  | @serve token key u p rest n a d hq hlast hu hn ha hdue h =>
    subst h
    obtain ⟨hfree, hundated⟩ := hr.head_free hv hd hq hu
    exact hr.grow (fun hw => (pop_sublist v key _).subset hw) hfree hundated
      (fun e he => by rw [(hdue e he).1.entry]) due_of_schedule (handle_of_hand hd hq)
  | @advance token n key next p rest c more hq hp hmore hn h =>
    subst h
    have hres : p.reserved = some c.compositeLockUuid := PendingRequest.reserved_of_composite hp
    have hfree : ∀ {k y q}, (v.pop key).Waits k y q → q.reserved ≠ some c.compositeLockUuid := hr.pop_free hd hq hres
    have hold : ∀ {k y q}, (v.pop key).Waits k y q → v.Waits k y q := fun hw => (pop_sublist v key _).subset hw
    refine ⟨fun hw hw' hu hu' => ?_, fun hw he hu => ?_, fun {a h' u k x ko q} ha hn hw hu => ?_, hr.one⟩
    · rcases waits_of_push hw with h₁ | ⟨rfl, rfl, rfl⟩ <;> rcases waits_of_push hw' with h₂ | ⟨rfl, rfl, rfl⟩
      · exact hr.waiters (hold h₁) (hold h₂) hu hu'
      · exact absurd (hu.trans hu'.symm) (hfree h₁)
      · exact absurd (hu'.trans hu.symm) (hfree h₂)
      · exact ⟨rfl, rfl⟩
    · rcases waits_of_push hw with hw | ⟨rfl, rfl, rfl⟩
      · exact hr.due (hold hw) he hu
      · exact hr.due (waits_head hq) he (hres.trans hu)
    · -- first the key is handed out, then the client notes the next queue
      obtain ⟨h₁, hc₁, hn₁, hp₁, hmoved⟩ : ∃ h₁, (v.hand key p c.compositeLockUuid token).handle a = some h₁ ∧
          h₁.heldLockUuids[u]? = some ko ∧ h₁.pendingRequestUuids ⊆ h'.pendingRequestUuids ∧
          (a = p.client → (next, p.requestUuid) ∈ h'.pendingRequestUuids) := by
        have hnext : ∀ {h₁ : ClientHandle}, (next, p.requestUuid) ∈ h₁.pendingRequestUuids ++
            [(next, (p.moved (c.advance key token)).requestUuid)] := List.mem_append_right _ (List.mem_singleton_self _)
        by_cases he : a = p.client
        · subst he
          obtain ⟨h₁, hc₁, rfl⟩ := handle_of_note_self ha
          exact ⟨h₁, hc₁, hn, List.subset_append_left _ _, fun _ => hnext⟩
        · rcases handle_of_note ha with hc₁ | ⟨he', _⟩
          · exact ⟨h', hc₁, hn, fun _ => id, fun he' => absurd he' he⟩
          · exact absurd he' he
      obtain ⟨h₀, hc₀, hnotes, hpend⟩ := handle_of_hand hd hq hc₁
      rcases waits_of_push hw with hw | ⟨rfl, rfl, rfl⟩
      · rcases hnotes hn₁ with hn₀ | rfl
        · obtain ⟨hcl, hp⟩ := hr.held hc₀ hn₀ (hold hw) hu
          exact ⟨hcl, hp₁ (hpend hw hp)⟩
        · exact absurd hu (hfree hw)
      · have hcl : a = p.client := by
          rcases handle_of_note hc₁ with hc | ⟨he, _⟩
          · obtain rfl := Option.some.inj (hc₀.symm.trans hc)
            exact (hr.held hc₀ hn₁ (waits_head hq) (hres.trans hu)).1
          · exact he
        exact ⟨hcl, hmoved hcl⟩

theorem Enters.reserves {op : Op} (h : v.Enters env op v') (hv : v.Agrees env) (hr : v.Reserves)
    (hnew : ∀ u, op.given = some u → ¬v.Known u) : v'.Reserves := by
  have hfree : ∀ {n : Nat} {u : String}, env.Gives op.given v.reads n u → ¬v.Known u :=
    fun hu => hu.new hnew fun _ => hv.undrawn
  cases h with
  | still _ => exact hr
  | @award lock kept token client r overrides u a d n _ hu hn _ hd =>
    refine hr.grow (fun hw => hw) (fun hw hq => hfree hu ⟨_, _, .waiter hw hq⟩)
      (fun he heq => hfree hu ⟨_, _, .deadline he heq⟩) (fun e he => by rw [(hd e he).entry]) due_of_schedule
      fun {c h'} hc => ?_
    rcases handle_of_note hc with hc₀ | ⟨_, h, hc₀, rfl⟩
    · exact ⟨h', hc₀, .inl, fun _ => id⟩
    · refine ⟨h, hc₀, fun {w ko} hn => ?_, fun _ => id⟩
      change (h.heldLockUuids.insert u lock)[w]? = some ko at hn
      rw [OrdMap.get_insert] at hn
      split at hn
      · rename_i he
        exact .inr he.symm
      · exact .inl hn
  | @enqueue client r overrides key p first n _ _ _ _ hu hn =>
    exact (hr.enqueue fun u hp => hfree (hu u hp)).sheds (.asked _ _)

/-- What is on record is one lock, and what waiters have reserved is theirs. -/
structure Ordered (env : Env) (v : Ledger) : Prop where
  agrees : v.Agrees env
  distinct : v.Distinct
  reserves : v.Reserves

theorem Grants.ordered (hinj : Function.Injective env.newV4) (h : v.Grants env v') (hv : v.Ordered env) : v'.Ordered env :=
  ⟨h.agrees hinj hv.agrees, hv.distinct.grants h, h.reserves hv.agrees hv.distinct hv.reserves⟩

theorem Enters.ordered {op : Op} (hinj : Function.Injective env.newV4) (h : v.Enters env op v') (hv : v.Ordered env)
    (hnew : ∀ u, op.given = some u → ¬v.Known u ∧ ∀ m, v.reads ≤ m → env.newV4 m ≠ u) : v'.Ordered env :=
  ⟨h.agrees hinj hv.agrees hnew, hv.distinct.enters h, h.reserves hv.agrees hv.reserves fun u hu => (hnew u hu).1⟩

/-- **An invariant of the grants that follow an operation**, which may rely on the ledger being in order. -/
theorem Cascade.keeps {I : Ledger → Prop} (hinj : Function.Injective env.newV4)
    (hstep : ∀ {v v'}, Ledger.Grants env v v' → v.Ordered env → I v → I v') (h : v.Cascade env v') (hv : v.Ordered env)
    (hi : I v) : v'.Ordered env ∧ I v' :=
  h.inv (I := fun v => v.Ordered env ∧ I v) ⟨hv, hi⟩ fun hg hv => ⟨hg.ordered hinj hv.1, hstep hg hv.1 hv.2⟩

end Ledger

namespace Broker

variable {env : Env} {b b' : Broker} {op : Op}

theorem Opens.ordered {v : Ledger} (h : b.Opens op v) (hb : b.ledger.Ordered env) : v.Ordered env :=
  ⟨hb.agrees.sheds h.sheds h.reads.ge, hb.distinct.sub h.queue_sublist, hb.reserves.sheds h.sheds⟩

theorem apply_ordered (hinj : Function.Injective env.newV4) (hs : b.Sane) (hb : b.ledger.Ordered env)
    (hop : op.PrescribesNew env b) : (b.apply env op).ledger.Ordered env := by
  obtain ⟨v₁, v₂, ho, he, hc⟩ := apply_turns env hs op
  exact (hc.keeps (I := fun _ => True) hinj (fun _ _ => id)
    (he.ordered hinj (ho.ordered hb) (ho.prescribesNew hop)) trivial).1

theorem ordered_new (cfg : BrokerConfig) : (Broker.new cfg).ledger.Ordered env := by
  have hwaits : ∀ k x p, ¬(Broker.new cfg).ledger.Waits k x p := by
    intro k x p hw
    simp [Ledger.Waits] at hw
  have hdue : ∀ dk e, (Broker.new cfg).ledger.due dk ≠ some e := by
    intro dk e he
    simp at he
  exact ⟨(consistent_new cfg).toAgrees, ledger_distinct _, fun hw => absurd hw (hwaits _ _ _),
    fun hw => absurd hw (hwaits _ _ _), fun _ _ hw => absurd hw (hwaits _ _ _), fun _ _ _ _ he => absurd he (hdue _ _)⟩

theorem ordered_install {env' : Env} {other : Broker} {now : Instant} (hs : other.Sane)
    (ho : other.ledger.Ordered env') (hfits : b.Fits env other)
    (hi : b.installRaftSnapshot env (other.snapshotForRaft now) = .ok b') : b'.ledger.Ordered env :=
  ⟨ho.agrees.moves (sheds_install hs hi) fun n hn hk => hfits n ((install_rest hi).2.2.1.trans hn) (known_of_ledger hk),
    ledger_distinct _, ho.reserves.sheds (sheds_install hs hi)⟩

/-- **In every run that prescribes new uuids only, the ledger is in order.** -/
theorem RunsIn.ordered {cfg : BrokerConfig} {Ok : Env → Broker → Op → Prop} {F : Env → Broker → Broker → Prop}
    (hok : ∀ {env b op}, Ok env b op → op.PrescribesNew env b) (hf : ∀ {env b other}, F env b other → b.Fits env other)
    (h : RunsIn cfg Ok F env b) : b.ledger.Ordered env := by
  induction h with
  | new env _ => exact ordered_new cfg
  | apply op hop h ih => exact apply_ordered h.injective (.reachable h.reachable) ih (hok hop)
  | install now _ ho hfits hi _ ih => exact ordered_install (.reachable ho.reachable) ih (hf hfits) hi

end Broker

/-! ## Stakes under a reserved uuid -/

namespace Ledger

variable {v v' : Ledger} {env : Env}

/-- Under the uuid a waiter has reserved, nothing is held but the keys it was granted. -/
def OnlyGranted (v : Ledger) : Prop := ∀ k x q u p kind s, v.Waits k x p → p.reserved = some u →
  v.stake q kind u = some s → ∃ c, p.kind = .composite c ∧ q ∈ c.grantedKeys

theorem OnlyGranted.sheds (h : v.OnlyGranted) (hs : v.Sheds v') : v'.OnlyGranted := by
  intro k x q u p kind s hw hu hst
  obtain ⟨p₀, hw, hk, hg, _⟩ := hs.waits hw
  obtain ⟨s₀, hst, _⟩ := hs.stake hst
  rw [hk]
  exact h _ _ _ _ _ _ _ hw (reserved_congr hk hg ▸ hu) hst

theorem Grants.onlyGranted (h : v.Grants env v') (hv : v.Ordered env) (hg : v.OnlyGranted) : v'.OnlyGranted := by
  cases h with
  | idle _ h =>
    subst h
    exact hg.sheds (.asked v _)
  | @serve token key u p rest n a d hq hlast hu hn ha hdue h =>
    subst h
    obtain ⟨hfree, _⟩ := hv.reserves.head_free hv.agrees hv.distinct hq hu
    intro k x q w p' kind s hw hres hs
    have hne : u ≠ w := fun he => hfree hw (he ▸ hres)
    change (v.hand key p u token).stake q kind w = some s at hs
    rw [hand_stake_ne hne] at hs
    exact hg _ _ _ _ _ _ _ ((pop_sublist v key _).subset hw) hres hs
  | @advance token n key next p rest c more hq hp hmore hn h =>
    subst h
    have hres : p.reserved = some c.compositeLockUuid := PendingRequest.reserved_of_composite hp
    intro k x q w p' kind s hw hu hs
    change (v.give [key] _ c.compositeLockUuid fun _ => ⟨p.client, p.keeps, token⟩).stake q kind w = some s at hs
    rcases waits_of_push hw with hw | ⟨rfl, rfl, rfl⟩
    · have hne : c.compositeLockUuid ≠ w := fun he => hv.reserves.pop_free hv.distinct hq hres hw (he ▸ hu)
      rw [give_stake_ne hne] at hs
      exact hg _ _ _ _ _ _ _ ((pop_sublist v key _).subset hw) hu hs
    · obtain rfl : c.compositeLockUuid = w := Option.some.inj hu
      refine ⟨_, rfl, ?_⟩
      rcases stake_of_give hs with hs | ⟨_, hk, _⟩
      · obtain ⟨c', hc', hmem⟩ := hg _ _ _ _ _ _ _ (waits_head hq) hres hs
        rw [hp] at hc'
        obtain rfl := PendingKind.composite.inj hc'
        exact List.mem_append_left _ hmem
      · exact List.mem_append_right _ hk

theorem Enters.onlyGranted {op : Op} (h : v.Enters env op v') (hv : v.Consistent env) (hg : v.OnlyGranted)
    (hnew : ∀ u, op.given = some u → ¬v.Uses u) : v'.OnlyGranted := by
  have hfree : ∀ {n : Nat} {u : String}, env.Gives op.given v.reads n u → ¬v.Uses u :=
    fun hu => hu.new hnew fun _ => hv.unused
  cases h with
  | still _ => exact hg
  | @award lock kept token client r overrides u a d n _ hu hn _ hd =>
    intro k x q w p kind s hw hres hs
    have hne : u ≠ w := fun he => hfree hu (.inl ⟨_, _, .waiter hw (he ▸ hres)⟩)
    change (v.award lock u client kept token a d).stake q kind w = some s at hs
    rw [award_stake_ne hne] at hs
    exact hg _ _ _ _ _ _ _ hw hres hs
  | @enqueue client r overrides key p first n _ _ _ _ hu hn =>
    intro k x q w p' kind s hw hres hs
    rcases waits_of_push hw with hw | ⟨rfl, rfl, rfl⟩
    · exact hg _ _ _ _ _ _ _ hw hres hs
    · exact absurd (.inr ⟨_, _, _, hs⟩) (hfree (hu _ hres))

end Ledger

namespace Broker

variable {env : Env} {b : Broker}

theorem RunsIn.onlyGranted {cfg : BrokerConfig}
    (h : RunsIn cfg (fun env b op => op.PrescribesUnused env b) Apart env b) : b.ledger.OnlyGranted := by
  induction h with
  | new env _ =>
    intro k x q u p kind s hw
    simp [Ledger.Waits] at hw
  | @apply env b op hop h ih =>
    have hb : b.ledger.Ordered env := h.ordered Op.PrescribesUnused.new Apart.fits
    obtain ⟨v₁, v₂, ho, he, hc⟩ := apply_turns env (.reachable h.reachable) op
    have hnew := ho.prescribed ho.sheds.uses hop
    have h₁ : v₁.Consistent env := h.consistent.sheds ho.sheds ho.reads.ge
    exact (hc.keeps h.injective Ledger.Grants.onlyGranted
      (he.ordered h.injective (ho.ordered hb) (ho.prescribesNew hop.new))
      (he.onlyGranted h₁ (ih.sheds ho.sheds) fun u hu => (hnew u hu).1)).2
  | install now _ ho _ hi _ ih => exact ih.sheds (sheds_install (.reachable ho.reachable) hi)

end Broker

end LiveMutex
