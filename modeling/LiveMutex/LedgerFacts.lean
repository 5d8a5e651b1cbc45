/-
Small facts about the moves of the ledger: who waits after them, and who was
handed what.
-/
import LiveMutex.LedgerRelease

namespace LiveMutex

theorem Request.canGrant_of_joins {r : Request} (h : r.joins = true) : requestCanGrant r = true := by
  unfold Request.joins at h
  split at h <;> first | rfl | cases h

/-- A lock uuid that is given out is new, if those prescribed and those drawn are. -/
theorem Env.Gives.new {env : Env} {given : Option String} {lo hi : Nat} {u : String} {K : String → Prop}
    (h : env.Gives given lo hi u) (hgiven : ∀ w, given = some w → ¬K w) (hdrawn : ∀ i, lo ≤ i → ¬K (env.newV4 i)) :
    ¬K u := by
  rcases h with hu | ⟨_, i, hlo, _, rfl⟩
  · exact hgiven u hu
  · exact hdrawn i hlo

/-- A composite is granted under the uuid it has reserved. -/
theorem Env.Gives.composite {env : Env} {p : PendingRequest} {c : Composite} {lo hi : Nat} {u : String}
    (h : env.Gives p.reserved lo hi u) (hc : p.kind = .composite c) : u = c.compositeLockUuid := by
  rw [PendingRequest.reserved_of_composite hc] at h
  rcases h with hu | ⟨hnone, _⟩
  · exact (Option.some.inj hu).symm
  · cases hnone

namespace Ledger

variable {v v' : Ledger} {k x y key : String} {p q : PendingRequest} {c : ClientId}

/-- The request `x` waits on the key. -/
def Waits (v : Ledger) (k x : String) (p : PendingRequest) : Prop := (x, p) ∈ v.queue k

/-- No uuid is twice in one queue. -/
def Distinct (v : Ledger) : Prop := ∀ k, ((v.queue k).map Prod.fst).Nodup

theorem waits_head {rest : List (String × PendingRequest)} (hq : v.queue k = (x, p) :: rest) : v.Waits k x p := by
  rw [Waits, hq]
  exact List.mem_cons_self

/-- Who waits after the head has left. -/
theorem waits_pop (hv : v.Distinct) {rest : List (String × PendingRequest)} (hq : v.queue key = (y, q) :: rest) :
    (v.pop key).Waits k x p ↔ v.Waits k x p ∧ ¬(k = key ∧ x = y) := by
  have hnodup := hv key
  rw [hq, List.map_cons, List.nodup_cons] at hnodup
  show (x, p) ∈ (if key = k then (v.queue k).tail else v.queue k) ↔ _
  by_cases hk : key = k
  · subst hk
    rw [if_pos rfl, hq, List.tail_cons]
    constructor
    · intro hm
      refine ⟨by rw [Waits, hq]; exact List.mem_cons_of_mem _ hm, fun he => hnodup.1 ?_⟩
      exact List.mem_map.2 ⟨(x, p), hm, he.2⟩
    · intro ⟨hw, hne⟩
      rw [Waits, hq] at hw
      rcases List.mem_cons.1 hw with he | hmem
      · exact absurd ⟨rfl, (Prod.mk.inj he).1⟩ hne
      · exact hmem
  · rw [if_neg hk]
    exact ⟨fun hw => ⟨hw, fun he => hk he.1.symm⟩, fun hw => hw.1⟩

/-- Who waits after a request was queued. -/
theorem waits_of_push {first : Bool} (h : (v.push key q first).Waits k y p) :
    v.Waits k y p ∨ k = key ∧ y = q.requestUuid ∧ p = q := by
  change (y, p) ∈ (if key = k ∧ _ then _ else v.queue k) at h
  split at h
  · rename_i hk
    cases first
    · rcases List.mem_append.1 h with h | h
      · exact .inl h
      · exact .inr ⟨hk.1.symm, Prod.mk.inj (List.mem_singleton.1 h)⟩
    · rcases List.mem_cons.1 h with h | h
      · exact .inr ⟨hk.1.symm, Prod.mk.inj h⟩
      · exact .inl h
  · exact .inl h

theorem Waits.push (h : v.Waits k y p) (key : String) (q : PendingRequest) (first : Bool) :
    (v.push key q first).Waits k y p := by
  change (y, p) ∈ (if key = k ∧ _ then _ else v.queue k)
  split
  · cases first
    · exact List.mem_append_left _ h
    · exact List.mem_cons_of_mem _ h
  · exact h

/-- A request whose uuid is not in the queue is now. -/
theorem waits_push_self (first : Bool) (h : ∀ p, ¬v.Waits key q.requestUuid p) :
    (v.push key q first).Waits key q.requestUuid q := by
  have hnew : q.requestUuid ∉ (v.queue key).map Prod.fst := by
    intro hm
    obtain ⟨e, he, hx⟩ := List.mem_map.1 hm
    exact h e.2 (show (_, e.2) ∈ _ from hx ▸ he)
  change _ ∈ (if key = key ∧ _ then _ else v.queue key)
  rw [if_pos ⟨rfl, hnew⟩]
  cases first <;> simp

/-- Nobody waits who was not there, and those who are cut have left. -/
theorem waits_cut {a : Cut} : (v.cut a).Waits k x p ↔ v.Waits k x p ∧ a.waiter k x p = false := by
  show (x, p) ∈ (v.queue k).filter _ ↔ _
  rw [List.mem_filter, Bool.not_eq_true']
  rfl

theorem cut_sublist (v : Ledger) (a : Cut) (k : String) : ((v.cut a).queue k).Sublist (v.queue k) :=
  List.filter_sublist

theorem drop_sublist (v : Ledger) (a : ClientId) (k : String) : ((v.drop a).queue k).Sublist (v.queue k) := by
  unfold drop
  split
  · exact cut_sublist v _ k
  · exact cut_sublist (v.expel a) _ k

theorem drop_past (v : Ledger) (a : ClientId) : (v.drop a).past = v.past := by
  unfold drop
  split <;> rfl

theorem told_of_past (h : v'.past = v.past) : v'.told = v.told := by rw [told, told, h]

/-- The request that is answered with its lock is told so. -/
theorem told_tell (v : Ledger) (c : ClientId) {a : Response} {x : String} (h : a.awarded = some x) :
    (v.tell c a).told = x :: v.told := List.filterMap_cons_some h

/-- The handle of a client that is still there is what it was, and not of the one that went. -/
theorem drop_handle {a : ClientId} {h : ClientHandle} (hc : (v.drop a).handle c = some h) :
    v.handle c = some h ∧ c ≠ a := by
  unfold drop at hc
  split at hc
  · rename_i hn
    refine ⟨hc, fun he => ?_⟩
    subst he
    cases hn.symm.trans hc
  · change (if a = c then none else v.handle c) = some h at hc
    split at hc
    · cases hc
    · rename_i hne
      exact ⟨hc, Ne.symm hne⟩

/-! ## Handles, deadlines and stakes after a move -/

theorem handle_of_note {a : ClientId} {f : ClientHandle → ClientHandle} {h' : ClientHandle}
    (h : (v.note c f).handle a = some h') : v.handle a = some h' ∨ a = c ∧ ∃ h, v.handle a = some h ∧ h' = f h := by
  change (if c = a then (v.handle a).map f else v.handle a) = some h' at h
  split at h
  · rename_i hc
    obtain ⟨h₀, hh, rfl⟩ := Option.map_eq_some_iff.1 h
    exact .inr ⟨hc.symm, h₀, hh, rfl⟩
  · exact .inl h

theorem handle_of_note_self {f : ClientHandle → ClientHandle} {h' : ClientHandle}
    (h : (v.note c f).handle c = some h') :
    ∃ h, v.handle c = some h ∧ h' = f h := by
  change (if c = c then (v.handle c).map f else v.handle c) = some h' at h
  rw [if_pos rfl] at h
  obtain ⟨h₀, hh, rfl⟩ := Option.map_eq_some_iff.1 h
  exact ⟨h₀, hh, rfl⟩

theorem note_handle_none {a : ClientId} {f : ClientHandle → ClientHandle} (h : v.handle a = none) :
    (v.note c f).handle a = none := by
  change (if c = a then (v.handle a).map f else v.handle a) = none
  simp [h]

theorem due_of_schedule {d : Option (DeadlineKey × DeadlineEntry)} {dk : DeadlineKey} {e : DeadlineEntry}
    (h : (v.schedule d).due dk = some e) : v.due dk = some e ∨ (dk, e) ∈ d := by
  cases d with
  | none => exact .inl h
  | some a =>
    by_cases hk : a.1 = dk
    · simp only [schedule, Option.filter, hk, decide_true, Option.elim, if_true] at h
      exact .inr (congrArg some (Prod.ext hk (Option.some.inj h)))
    · simp only [schedule, Option.filter, hk, decide_false, Bool.false_eq_true, if_false, Option.elim] at h
      exact .inl h

theorem due_of_strike {a dk : DeadlineKey} {e : DeadlineEntry} (h : (v.strike a).due dk = some e) :
    v.due dk = some e := by
  change (if a = dk then none else v.due dk) = some e at h
  split at h
  · cases h
  · exact h

theorem stake_of_give {keys : List String} {kind kd : RwHoldKind} {u w : String} {s : String → Stake} {s' : Stake}
    (h : (v.give keys kind u s).stake k kd w = some s') :
    v.stake k kd w = some s' ∨ w = u ∧ k ∈ keys ∧ kd = kind ∧ s' = s k := by
  change (if k ∈ keys ∧ kind = kd ∧ u = w then some (s k) else v.stake k kd w) = some s' at h
  split at h
  · rename_i hk
    exact .inr ⟨hk.2.2.symm, hk.1, hk.2.1.symm, (Option.some.inj h).symm⟩
  · exact .inl h

theorem stake_of_cut {a : Cut} {kind : RwHoldKind} {u : String} {s : Stake} :
    (v.cut a).stake k kind u = some s ↔ v.stake k kind u = some s ∧ a.stake k kind u s = false := by
  show (v.stake k kind u).filter _ = some s ↔ _
  rw [Option.filter_eq_some_iff, Bool.not_eq_true']

/-- A stake under another uuid is not touched. -/
theorem give_stake_ne {keys : List String} {kind kd : RwHoldKind} {u w : String} {s : String → Stake} (h : u ≠ w) :
    (v.give keys kind u s).stake k kd w = v.stake k kd w := by
  show (if k ∈ keys ∧ kind = kd ∧ u = w then _ else _) = _
  rw [if_neg fun hk => h hk.2.2]

theorem hand_stake_ne {kd : RwHoldKind} {u w : String} {token : Nat} (h : u ≠ w) :
    (v.hand key p u token).stake k kd w = v.stake k kd w :=
  give_stake_ne (v := v.pop key) (s := fun _ => ⟨p.client, p.keeps, token⟩) h

theorem award_stake_ne {lock : KeysOfLock} {kd : RwHoldKind} {u w : String} {kept : Bool} {token : String → Nat}
    {a : Response} {d : Option (DeadlineKey × DeadlineEntry)} (h : u ≠ w) :
    (v.award lock u c kept token a d).stake k kd w = v.stake k kd w :=
  give_stake_ne (v := v) (s := fun k => ⟨c, kept, token k⟩) h

/-! ## Distinct uuids -/

theorem Distinct.sub (h : v.Distinct) (hq : ∀ k, (v'.queue k).Sublist (v.queue k)) : v'.Distinct :=
  fun k => ((hq k).map _).nodup (h k)

theorem pop_sublist (v : Ledger) (key k : String) : ((v.pop key).queue k).Sublist (v.queue k) := by
  show (if key = k then _ else _ : List _).Sublist _
  split
  · exact List.tail_sublist _
  · exact .refl _

theorem Distinct.push (h : v.Distinct) (key : String) (p : PendingRequest) (first : Bool) :
    (v.push key p first).Distinct := by
  intro k
  show ((if key = k ∧ _ then _ else v.queue k).map Prod.fst).Nodup
  split
  · rename_i hnew
    cases first
    · simpa [List.nodup_append] using ⟨h k, fun y q hm he => hnew.2 (List.mem_map.2 ⟨_, hm, he⟩)⟩
    · exact List.nodup_cons.2 ⟨hnew.2, h k⟩
  · exact h k

theorem Distinct.pop (h : v.Distinct) (key : String) : (v.pop key).Distinct := h.sub (pop_sublist v key)

/-- What every grant keeps, a cascade keeps. -/
theorem Cascade.inv {env : Env} {I : Ledger → Prop} (h : v.Cascade env v') (hv : I v)
    (hstep : ∀ {v v'}, Ledger.Grants env v v' → I v → I v') : I v' := by
  induction h with
  | refl => exact hv
  | tail _ hg ih => exact hstep hg ih

theorem Distinct.grants {env : Env} (h : v.Distinct) (hg : v.Grants env v') : v'.Distinct := by
  cases hg with
  | idle _ he => exact he ▸ h
  | serve token _ _ _ _ _ _ he => exact he ▸ h.pop _
  | advance token n _ _ _ _ he => exact he ▸ (h.pop _).push _ _ _

theorem Distinct.enters {env : Env} {op : Op} (h : v.Distinct) (he : v.Enters env op v') : v'.Distinct := by
  cases he with
  | still => exact h
  | award => exact h
  | enqueue => exact h.push _ _ _

end Ledger

namespace Broker

variable {b : Broker}

theorem ledger_waits {k x : String} {p : PendingRequest} : b.ledger.Waits k x p ↔ b.locks.Waits k x p := by
  show (x, p) ∈ b.locks[k]?.elim [] (fun l => l.queue.entries) ↔ ∃ l, b.locks[k]? = some l ∧ _
  cases b.locks[k]? <;> simp

/-- The requests that were told they have their lock, as the messages have it. -/
theorem ledger_told (b : Broker) : b.ledger.told = b.sent.filterMap fun s => s.response.awarded := by
  show (b.sent.filterMap Sent.notice).filterMap _ = _
  rw [List.filterMap_filterMap]
  congr 1
  funext s
  unfold Sent.notice
  cases h : s.response.awarded <;> simp [h]

theorem ledger_distinct (b : Broker) : b.ledger.Distinct := by
  intro k
  show ((b.locks[k]?.elim [] fun l => l.queue.entries).map Prod.fst).Nodup
  cases b.locks[k]? with
  | none => simp
  | some l => exact l.queue.nodup

/-- Nothing is on the ledger of a new broker. -/
@[simp] theorem ledger_new (cfg : BrokerConfig) : (Broker.new cfg).ledger =
    ⟨fun _ => [], fun _ _ _ => none, fun _ => none, fun _ => none, ⟨[], []⟩, 0⟩ :=
  Ledger.ext (funext fun _ => by simp [ledger, LockTable.queueAt, Broker.new, BrokerState.new])
    (funext fun _ => funext fun _ => funext fun _ => by simp [ledger, LockTable.stakeAt, Broker.new, BrokerState.new])
    (funext fun _ => by simp [ledger, Broker.new, BrokerState.new])
    (funext fun _ => by simp [ledger, Broker.new, BrokerState.new]) rfl rfl

end Broker

/-! ## Before anyone is woken -/

/-- What an operation takes off the ledger. -/
def Op.cut (b : Broker) : Op → Cut
  | .request client r _ => b.ledger.requestCut client r
  | .dropClient client => (b.clients[client]?.map ClientHandle.cut).getD (.client client)
  | _ => {}

/-- A stake is as it was, whoever owns it now. -/
def Stake.Like (s s' : Stake) : Prop := s'.kept = s.kept ∧ s'.token = s.token

/-- As deadlines pass, a stake goes only with the deadline of its uuid. -/
theorem Ledger.stake_of_expires {v v' : Ledger} {now : Instant} (h : Relation.ReflTransGen (Expires now) v v') :
    (∀ {dk e}, v'.due dk = some e → v.due dk = some e) ∧
    (∀ {k kind u s}, v'.stake k kind u = some s → v.stake k kind u = some s) ∧
    ∀ {k kind u s}, v.stake k kind u = some s → v'.stake k kind u = some s ∨
      ∃ dk e, v.due dk = some e ∧ e.lockUuid = u ∧ v'.due dk = none ∧ dk.1 ≤ now := by
  induction h with
  | refl => exact ⟨id, id, .inl⟩
  | @tail v₁ v₂ _ he ih =>
    obtain ⟨hdue, hback, hstake⟩ := ih
    have hstruck : ∀ {w : Ledger} {dk dk' : DeadlineKey}, w.due dk = none → (w.strike dk').due dk = none := by
      intro w dk dk' hn
      show (if dk' = dk then none else w.due dk) = none
      rw [hn, ite_self]
    cases he with
    | stale _ _ he =>
      subst he
      refine ⟨fun h => hdue (due_of_strike h), hback, fun hs => ?_⟩
      exact (hstake hs).imp_right fun ⟨dk, e, hd, hu, hn, hnow⟩ => ⟨dk, e, hd, hu, hstruck hn, hnow⟩
    | @evict dk e hd hnow he =>
      subst he
      refine ⟨fun h => hdue (due_of_strike h), fun h => hback (stake_of_cut.1 h).1, fun {k kind u s} hs => ?_⟩
      rcases hstake hs with hs | ⟨dk', e', hd', hu, hn, hnow'⟩
      · by_cases hcut : e.cut.stake k kind u s = true
        · simp only [DeadlineEntry.cut, decide_eq_true_eq] at hcut
          refine .inr ⟨dk, e, hdue hd, hcut.2.2.symm, ?_, hnow⟩
          show (if dk = dk then none else _) = none
          rw [if_pos rfl]
        · exact .inl (stake_of_cut.2 ⟨hs, by simpa using hcut⟩)
      · exact .inr ⟨dk', e', hd', hu, hstruck hn, hnow'⟩

/-- As deadlines pass, the queues stay, and nobody is granted or told anything. -/
theorem Ledger.rest_of_expires {v v' : Ledger} {now : Instant} (h : Relation.ReflTransGen (Expires now) v v') :
    v'.queue = v.queue ∧ v'.past = v.past ∧ v'.reads = v.reads := by
  induction h with
  | refl => exact ⟨rfl, rfl, rfl⟩
  | tail _ he ih =>
    rcases he with ⟨_, _, rfl⟩ | ⟨_, _, rfl⟩
    · exact ih
    · exact ⟨(funext fun k => List.filter_eq_self.2 fun _ _ => rfl).trans ih.1, ih.2⟩

namespace Broker

variable {b : Broker} {op : Op} {v : Ledger}

/-- The operation has made its cut, or the owner of a lock is gone, or deadlines have passed. -/
theorem Opens.cases (h : b.Opens op v) :
    (v.queue = (b.ledger.cut (op.cut b)).queue ∧ v.stake = (b.ledger.cut (op.cut b)).stake ∧
      v.due = b.ledger.due ∧ v.past = b.ledger.past ∧ v.reads = b.reads) ∨
    (∃ u, b.ledger.Detached u v ∧ op.cut b = {}) ∨
    ∃ now, Relation.ReflTransGen (Ledger.Expires now) b.ledger v ∧ op = .tickTtl now := by
  have hnone : b.ledger.queue = (b.ledger.cut {}).queue ∧ b.ledger.stake = (b.ledger.cut {}).stake ∧
      b.ledger.due = b.ledger.due ∧ b.ledger.past = b.ledger.past ∧ b.ledger.reads = b.reads := by
    refine ⟨funext fun k => ?_, funext fun k => funext fun kind => funext fun u => ?_, rfl, rfl, rfl⟩
    · simp [Ledger.cut]
    · simp [Ledger.cut]
  cases op with
  | registerClient =>
    subst h
    exact .inl hnone
  | registerClientWithId id =>
    subst h
    exact .inl hnone
  | request client r overrides =>
    obtain ⟨_, _, rfl⟩ := h
    exact .inl ⟨rfl, rfl, rfl, rfl, rfl⟩
  | dropClient client =>
    subst h
    unfold Ledger.drop
    cases hc : b.clients[client]? with
    | none =>
      rw [show b.ledger.handle client = none from hc]
      exact .inl (by simp only [Op.cut, hc]; exact ⟨rfl, rfl, rfl, rfl, rfl⟩)
    | some handle =>
      rw [show b.ledger.handle client = some handle from hc]
      exact .inl (by simp only [Op.cut, hc]; exact ⟨rfl, rfl, rfl, rfl, rfl⟩)
  | detachLockFromClient client u =>
    subst h
    exact .inl hnone
  | detachLockOwner u => exact .inr (.inl ⟨u, h, rfl⟩)
  | tickTtl now => exact .inr (.inr ⟨now, h, rfl⟩)

/-- Nobody joins a queue. -/
theorem Opens.queue_sublist (h : b.Opens op v) (k : String) : (v.queue k).Sublist (b.ledger.queue k) := by
  rcases h.cases with ⟨hq, _⟩ | ⟨_, hd, _⟩ | ⟨_, he, _⟩
  · exact hq ▸ Ledger.cut_sublist _ _ k
  · rw [hd.queue]
  · rw [(Ledger.rest_of_expires he).1]

/-- No deadline is recorded, and nobody is granted or told anything. -/
theorem Opens.rest (h : b.Opens op v) :
    (∀ dk e, v.due dk = some e → b.deadlines[dk]? = some e) ∧ v.past = b.past := by
  rcases h.cases with ⟨_, _, hdue, hpast, _⟩ | ⟨_, hd, _⟩ | ⟨_, he, _⟩
  · exact ⟨fun dk e h => by rw [hdue] at h; exact h, hpast⟩
  · exact ⟨fun dk e h => by rw [hd.due] at h; exact h, hd.past⟩
  · exact ⟨fun dk e h => (Ledger.stake_of_expires he).1 h, (Ledger.rest_of_expires he).2.1⟩

theorem Opens.reads (h : b.Opens op v) : v.reads = b.reads := by
  rcases h.cases with ⟨_, _, _, _, hreads⟩ | ⟨_, hd, _⟩ | ⟨_, he, _⟩
  · exact hreads
  · exact hd.reads
  · exact (Ledger.rest_of_expires he).2.2

/-- Who still waits was not withdrawn. -/
theorem Opens.waits (h : b.Opens op v) {k x : String} {p : PendingRequest} (hw : v.Waits k x p) :
    b.ledger.Waits k x p ∧ (op.cut b).waiter k x p = false := by
  rcases h.cases with ⟨hq, _⟩ | ⟨_, _, hcut⟩ | ⟨_, _, rfl⟩
  · unfold Ledger.Waits at hw
    rw [hq] at hw
    exact Ledger.waits_cut.1 hw
  · exact ⟨(h.queue_sublist k).subset hw, by rw [hcut]⟩
  · exact ⟨(h.queue_sublist k).subset hw, rfl⟩

/-- A stake that is still there was not taken. -/
theorem Opens.stake_left (h : b.Opens op v) {k u : String} {kind : RwHoldKind} {s' : Stake}
    (hs : v.stake k kind u = some s') :
    ∃ s, b.ledger.stake k kind u = some s ∧ (op.cut b).stake k kind u s = false ∧ s.Like s' ∧
      (s'.client = s.client ∨ s'.client = snapshotDetachedClient) := by
  rcases h.cases with ⟨_, hst, _⟩ | ⟨w, hd, hcut⟩ | ⟨now, he, rfl⟩
  · rw [hst] at hs
    exact ⟨s', (Ledger.stake_of_cut.1 hs).1, (Ledger.stake_of_cut.1 hs).2, ⟨rfl, rfl⟩, .inl rfl⟩
  · rw [hd.stake] at hs
    rw [hcut]
    split at hs
    · obtain ⟨s, hs₀, rfl⟩ := Option.map_eq_some_iff.1 hs
      exact ⟨s, hs₀, rfl, ⟨rfl, rfl⟩, .inr rfl⟩
    · exact ⟨s', hs, rfl, ⟨rfl, rfl⟩, .inl rfl⟩
  · exact ⟨s', (Ledger.stake_of_expires he).2.1 hs, rfl, ⟨rfl, rfl⟩, .inl rfl⟩

/-- A stake that is not taken stays, unless a deadline of its uuid passes. -/
theorem Opens.stake_stays (h : b.Opens op v) {k u : String} {kind : RwHoldKind} {s : Stake}
    (hs : b.ledger.stake k kind u = some s) (hcut : (op.cut b).stake k kind u s = false) :
    (∃ s', v.stake k kind u = some s' ∧ s.Like s') ∨
      ∃ dk e now, b.ledger.due dk = some e ∧ e.lockUuid = u ∧ v.due dk = none ∧ op = .tickTtl now ∧ dk.1 ≤ now := by
  rcases h.cases with ⟨_, hst, _⟩ | ⟨w, hd, _⟩ | ⟨now, he, rfl⟩
  · exact .inl ⟨s, by rw [hst]; exact Ledger.stake_of_cut.2 ⟨hs, hcut⟩, rfl, rfl⟩
  · rw [hd.stake, hs]
    split
    · exact .inl ⟨_, rfl, rfl, rfl⟩
    · exact .inl ⟨_, rfl, rfl, rfl⟩
  · rcases (Ledger.stake_of_expires he).2.2 hs with hs | ⟨dk, e, hd, hu, hn, hnow⟩
    · exact .inl ⟨s, hs, rfl, rfl⟩
    · exact .inr ⟨dk, e, now, hd, hu, hn, rfl, hnow⟩

end Broker

/-! ## Handles come by registering -/

/-- The operation gives a client a handle. -/
def Op.registers : Op → Bool
  | .registerClient | .registerClientWithId _ => true
  | _ => false

namespace Ledger

variable {env : Env} {v v' : Ledger} {a c : ClientId}

theorem Grants.handle_none (h : v.Grants env v') (hn : v.handle a = none) : v'.handle a = none := by
  cases h with
  | idle _ he => exact he ▸ hn
  | serve _ _ _ _ _ _ _ he => exact he ▸ note_handle_none hn
  | advance _ _ _ _ _ _ he => exact he ▸ note_handle_none (note_handle_none hn)

theorem Cascade.handle_none (h : v.Cascade env v') (hn : v.handle a = none) : v'.handle a = none :=
  h.inv hn Grants.handle_none

theorem Enters.handle_none {op : Op} (h : v.Enters env op v') (hn : v.handle a = none) : v'.handle a = none := by
  cases h with
  | still => exact hn
  | award => exact note_handle_none hn
  | enqueue => exact note_handle_none hn

end Ledger

/-- The handle notes what the other notes, or fewer locks. -/
def ClientHandle.Within (h' h : ClientHandle) : Prop :=
  h'.pendingRequestUuids = h.pendingRequestUuids ∧
    ∀ {u : String} {ko : KeysOfLock}, h'.heldLockUuids[u]? = some ko → h.heldLockUuids[u]? = some ko

theorem ClientHandle.Within.erase (h : ClientHandle) (u : String) :
    ({ h with heldLockUuids := h.heldLockUuids.erase u } : ClientHandle).Within h := by
  refine ⟨rfl, fun {w ko} hko => ?_⟩
  dsimp only at hko
  rw [OrdMap.get_erase] at hko
  split at hko
  · cases hko
  · exact hko

namespace Broker

variable {env : Env} {b : Broker} {a : ClientId}

theorem nextId_ne_zero (id : ClientId) : nextId id ≠ snapshotDetachedClient := by
  have h : 1 ≤ nextId id := Nat.le_max_right _ _
  exact fun he => absurd (he ▸ h) (by decide)

theorem searchClientId_ne_zero (b : Broker) : ∀ (fuel : Nat) (id : ClientId), id ≠ snapshotDetachedClient →
    b.searchClientId fuel id ≠ snapshotDetachedClient
  | 0, _, h => h
  | fuel + 1, id, h => by
    rw [searchClientId]
    split
    · exact searchClientId_ne_zero b fuel _ (nextId_ne_zero id)
    · exact h

/-- No client is registered under the id of those a snapshot does not know. -/
theorem nextAvailableClientId_ne_zero (b : Broker) (id : ClientId) :
    b.nextAvailableClientId id ≠ snapshotDetachedClient := by
  refine searchClientId_ne_zero b _ _ fun he => ?_
  have h : 1 ≤ Nat.max id 1 := Nat.le_max_right _ _
  exact absurd (he ▸ h) (by decide)

/-- Before anyone is woken no handle notes more, but for new ones, which note nothing. -/
theorem Opens.handle_within {op : Op} {v : Ledger} (h : b.Opens op v) {h' : ClientHandle} (hc : v.handle a = some h') :
    op.registers = true ∧ h' = ⟨∅, []⟩ ∧ a ≠ snapshotDetachedClient ∨
      ∃ h, b.ledger.handle a = some h ∧ h'.Within h := by
  have hregister : ∀ {c}, c ≠ snapshotDetachedClient → (b.ledger.register c).handle a = some h' →
      h' = ⟨∅, []⟩ ∧ a ≠ snapshotDetachedClient ∨ ∃ h, b.ledger.handle a = some h ∧ h'.Within h := by
    intro c hne hc
    change (if c = a then some ⟨∅, []⟩ else b.ledger.handle a) = some h' at hc
    split at hc
    · rename_i hca
      exact .inl ⟨(Option.some.inj hc).symm, hca ▸ hne⟩
    · exact .inr ⟨h', hc, rfl, id⟩
  cases op with
  | registerClient => exact (hregister (nextAvailableClientId_ne_zero b _) (h ▸ hc)).imp_left fun he => ⟨rfl, he⟩
  | registerClientWithId id =>
    exact (hregister (nextAvailableClientId_ne_zero b _) (h ▸ hc)).imp_left fun he => ⟨rfl, he⟩
  | request client r overrides =>
    obtain ⟨hs, hf, rfl⟩ := h
    rcases hf a with ⟨_, hn⟩ | ⟨h, held, hh, he, hheld⟩
    · cases hn.symm.trans hc
    · obtain rfl := Option.some.inj (he.symm.trans hc)
      refine .inr ⟨h, hh, rfl, fun {u ko} hko => ?_⟩
      rcases hheld u with hsame | ⟨hgone, _⟩
      · exact hsame ▸ hko
      · cases hgone.symm.trans hko
  | dropClient client => exact .inr ⟨h', (Ledger.drop_handle (h ▸ hc)).1, rfl, id⟩
  | detachLockFromClient client u =>
    subst h
    rcases Ledger.handle_of_note hc with hold | ⟨_, h, hold, rfl⟩
    · exact .inr ⟨h', hold, rfl, id⟩
    · exact .inr ⟨h, hold, .erase h u⟩
  | detachLockOwner u =>
    rcases h.handle a with he | ⟨_, h, hh, he | ⟨he, _⟩⟩
    · exact .inr ⟨h', he ▸ hc, rfl, id⟩
    · obtain rfl := Option.some.inj (he.symm.trans hc)
      exact .inr ⟨h, hh, .erase h u⟩
    · cases he.symm.trans hc
  | tickTtl now =>
    refine .inr ?_
    clear hregister
    induction h generalizing h' with
    | refl => exact ⟨h', hc, rfl, id⟩
    | tail _ he ih =>
      rcases he with ⟨_, _, rfl⟩ | ⟨_, _, rfl⟩
      · exact ih hc
      · rcases Ledger.handle_of_note hc with hold | ⟨_, h₁, hold, rfl⟩
        · exact ih hold
        · obtain ⟨h, hh, hp, hheld⟩ := ih hold
          exact ⟨h, hh, hp, fun hko => hheld ((ClientHandle.Within.erase h₁ _).2 hko)⟩

theorem Opens.handle_none {op : Op} {v : Ledger} (h : b.Opens op v) (hop : op.registers = false)
    (hn : b.clients[a]? = none) : v.handle a = none := by
  by_contra hne
  obtain ⟨h', hc⟩ := Option.ne_none_iff_exists'.1 hne
  rcases h.handle_within hc with ⟨hreg, _⟩ | ⟨h, hh, _⟩
  · cases hop.symm.trans hreg
  · exact Option.some_ne_none h (hh.symm.trans hn)

/-- A client gets a handle by registering only. -/
theorem apply_clients_none (hb : b.Sane) {op : Op} (hop : op.registers = false) (hn : b.clients[a]? = none) :
    (b.apply env op).clients[a]? = none := by
  obtain ⟨v₁, v₂, ho, he, hc⟩ := apply_turns env hb op
  exact hc.handle_none (he.handle_none (ho.handle_none hop hn))

end Broker

end LiveMutex
