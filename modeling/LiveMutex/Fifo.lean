/-
First in, first out: while a request for one key stays in the key's queue, that
key is granted only to requests that stood before it, to those that set `force`,
and to composites; and in the operation in which it leaves the queue with a grant,
so is what is granted before that.

A request that arrives is queued behind, and only the head of a queue is granted.
What breaks the order is the grant on arrival: `handle_exclusive_lock` compares
the number of holders with `max` and never looks at the queue, so where waiting
requests face holders that leave room (a writer before a semaphore, or `max` just
raised) a later request is let in past them.
-/
import LiveMutex.Guards
import LiveMutex.Sample
import LiveMutex.StepFacts

namespace LiveMutex

namespace LockTable

/-- The entry `e` is in the queue of `k`, and every entry before it is in `A`. -/
def Behind (t : LockTable) (A : String × PendingRequest → Prop) (k : String) (e : String × PendingRequest) : Prop :=
  ∃ l, t[k]? = some l ∧ l.queue.Behind A e

variable {t : LockTable} {A : String × PendingRequest → Prop} {k key : String} {e : String × PendingRequest}

theorem behind_insert {l : LockState} :
    Behind (t.insert key l) A k e ↔ if key = k then l.queue.Behind A e else t.Behind A k e := by
  unfold Behind
  rw [OrdMap.get_insert]
  split <;> simp

theorem Behind.get {l : LockState} (h : t.Behind A k e) (hl : t[k]? = some l) : l.queue.Behind A e := by
  obtain ⟨l', hl', hb⟩ := h
  rw [hl] at hl'
  obtain rfl := Option.some.inj hl'
  exact hb

theorem Behind.waits (h : t.Behind A k e) : t.Waits k e.1 e.2 := by
  obtain ⟨l, hl, hb⟩ := h
  exact ⟨l, hl, hb.mem⟩

/-- The queue of an entry that is replaced. -/
theorem Behind.insert {l l' : LockState} (h : t.Behind A k e) (hl : t[key]? = some l)
    (hq : key = k → l.queue.Behind A e → l'.queue.Behind A e) : Behind (t.insert key l') A k e := by
  rw [behind_insert]
  split
  · rename_i he
    subst he
    exact hq rfl (h.get hl)
  · exact h

/-- The queue of an entry that is made. -/
theorem Behind.create {l : LockState} (h : t.Behind A k e) (hn : t[key]? = none) : Behind (t.insert key l) A k e := by
  rw [behind_insert]
  split
  · rename_i he
    subst he
    obtain ⟨l', hl', _⟩ := h
    rw [hn] at hl'
    cases hl'
  · exact h

end LockTable

/-- What a request for one key does to it. -/
def Action.ComesIn : Action → Prop
  | .create .. | .setMax .. | .stamp .. | .grant .. | .enqueue .. => True
  | _ => False

namespace Step

variable {cfg : BrokerConfig} {floor : Nat} {t t' : LockTable} {a : Action} {A : String × PendingRequest → Prop}
  {k : String} {e : String × PendingRequest}

/-- Someone at the head of a queue leaves it with a grant: one who stood before `e`, or `e` itself. -/
theorem behind_head {g : Grant} {p : PendingRequest} {l : LockState} (ht : t.Behind A k e) (hl : t[g.key]? = some l)
    (hg : g.For p l) :
    LockTable.Behind (t.insert g.key (l.pop.take (p.terms g.key) g)) A k e ∧
      (g.key = k → ∃ f, A f ∧ g.requestUuid = f.2.requestUuid) ∨
    ¬LockTable.Waits (t.insert g.key (l.pop.take (p.terms g.key) g)) k e.1 e.2 ∧ g.key = k ∧ p = e.2 := by
  obtain ⟨x, hx⟩ := hg.front
  by_cases he : g.key = k ∧ (x, p) = e
  · obtain ⟨rfl, rfl⟩ := he
    refine .inr ⟨?_, rfl, rfl⟩
    rw [LockTable.waits_insert, if_pos rfl, LockState.take_queue]
    exact LinkedQueue.not_mem_popFront hx
  · rw [not_and] at he
    refine .inl ⟨ht.insert hl fun hk hb => ?_, fun hk => ⟨(x, p), ?_, hg.requestUuid⟩⟩
    · rw [LockState.take_queue]
      exact hb.popFront hx (he hk)
    · exact (((hk ▸ ht).get hl).front hx).resolve_left (he hk)

/-- **One step.** `e`, no composite, stays in the queue of `k` with nobody new before it, and `k` is granted to
someone before it or on arrival; or it leaves, withdrawn or with a grant of its own. -/
theorem behind (h : Step cfg floor t a t') (ht : t.Behind A k e) (hp : e.2.isComposite = false)
    (hfirst : ∀ p, a = .enqueue k p true → A (p.requestUuid, p)) :
    (t'.Behind A k e ∧ ∀ g ∈ a.grants, g.key = k → (∃ terms, a = .grant g terms) ∨
      ∃ f, A f ∧ g.requestUuid = f.2.requestUuid) ∨
    ¬t'.Waits k e.1 e.2 ∧ (a = .withdraw k e.1 ∨
      ∃ g, a = .grantHead g e.2 ∧ g.key = k ∧ g.requestUuid = e.2.requestUuid) := by
  have none : a.grants = [] → t'.Behind A k e → t'.Behind A k e ∧ ∀ g ∈ a.grants, g.key = k →
      (∃ terms, a = .grant g terms) ∨ ∃ f, A f ∧ g.requestUuid = f.2.requestUuid := by
    intro hg hb
    rw [hg]
    exact ⟨hb, fun g hmem => absurd hmem List.not_mem_nil⟩
  have hcomposite : ∀ {p : PendingRequest} {c : Composite}, p.kind = .composite c → p ≠ e.2 := by
    rintro p c hc rfl
    simp [PendingRequest.isComposite, hc] at hp
  cases h with
  | create hn _ => exact .inl (none rfl (ht.create hn))
  | setMax hl _ _ => exact .inl (none rfl (ht.insert hl fun _ hb => hb))
  | stamp hl _ => exact .inl (none rfl (ht.insert hl fun _ hb => hb))
  | @grant g terms l hl _ _ =>
    refine .inl ⟨ht.insert hl fun _ hb => by rw [LockState.take_queue]; exact hb, fun g' hg' _ => .inl ⟨terms, ?_⟩⟩
    rw [List.mem_singleton.1 hg']
  | @grantHead g p l hl _ hg _ =>
    rcases behind_head ht hl hg with ⟨hb, hA⟩ | ⟨hgone, hk, rfl⟩
    · refine .inl ⟨hb, fun g' hg' hk => .inr ?_⟩
      obtain rfl := List.mem_singleton.1 hg'
      exact hA hk
    · exact .inr ⟨hgone, .inr ⟨g, rfl, hk, hg.requestUuid⟩⟩
  | @finish g p c l hl hc _ hg _ =>
    obtain ⟨hb, hA⟩ := (behind_head ht hl hg).resolve_right fun h => hcomposite hc h.2.2
    refine .inl ⟨hb, fun g' hg' hk => .inr ?_⟩
    obtain rfl := List.mem_singleton.1 hg'
    exact hA hk
  | @advance g p c next rest l l' hl hc _ hg _ hl' =>
    obtain ⟨hb, hA⟩ := (behind_head ht hl hg).resolve_right fun h => hcomposite hc h.2.2
    refine .inl ⟨?_, fun g' hg' hk => .inr ?_⟩
    · rcases hl' with hl' | ⟨hn, _⟩
      · exact hb.insert hl' fun _ hb => hb.pushBack _ _
      · exact hb.create hn
    · obtain rfl := List.mem_singleton.1 hg'
      exact hA hk
  | @enqueue key p l first hl _ =>
    refine .inl (none rfl (ht.insert hl fun hk hb => ?_))
    subst hk
    cases first with
    | false => exact hb.pushBack _ _
    | true => exact hb.pushFront (hfirst p rfl)
  | @withdraw key x l hl =>
    by_cases he : key = k ∧ x = e.1
    · obtain ⟨rfl, rfl⟩ := he
      refine .inr ⟨?_, .inl rfl⟩
      rw [LockTable.waits_insert, if_pos rfl]
      exact fun hmem => of_decide_eq_true (List.mem_filter.1 hmem).2 rfl
    · refine .inl (none rfl (ht.insert hl fun hk hb => hb.of_filter rfl ?_))
      exact List.mem_filter.2 ⟨hb.mem, decide_eq_true fun hx => he ⟨hk, hx.symm⟩⟩
  | release hl => exact .inl (none rfl (ht.insert hl fun _ hb => by rw [LockState.removeForKind_queue]; exact hb))
  | wipe hl => exact .inl (none rfl (ht.insert hl fun _ hb => hb))
  | detach u =>
    obtain ⟨l, hl, hb⟩ := ht
    refine .inl (none rfl ⟨l.detachOwner u, ?_, hb⟩)
    rw [Std.ExtTreeMap.getElem?_map, hl]
    rfl
  | @prune key l hl hi =>
    obtain ⟨l', hl', hb⟩ := ht
    refine .inl (none rfl ⟨l', ?_, hb⟩)
    rw [OrdMap.get_erase, if_neg, hl']
    -- nobody waits on a key that is reclaimed
    rintro rfl
    obtain rfl := Option.some.inj (hl.symm.trans hl')
    simp only [LockState.isIdle, LinkedQueue.isEmpty, Bool.and_eq_true, List.isEmpty_iff] at hi
    exact absurd (hi.2 ▸ hb.mem) List.not_mem_nil

/-- A waiter that is no composite is there after a step only if it was before,
or is queued by it. -/
theorem waits_back (h : Step cfg floor t a t') {x : String} {p : PendingRequest} (hw : t'.Waits k x p)
    (hp : p.isComposite = false) (hne : ∀ first, a ≠ .enqueue k p first) : t.Waits k x p := by
  rcases h.waits hw with hw | ⟨first, he, _⟩ | ⟨g, p₀, c, y, rest, _, _, _, _, rfl, _⟩
  · exact hw
  · exact absurd he (hne first)
  · cases hp

end Step

namespace Broker

variable {env : Env} {given : Option String} {ok : Action → Prop} {b b' : Broker} {U : String → Prop}
  {k : String} {e : String × PendingRequest}

/-- `e` is in the queue of `k`, and every request before it has a uuid in `U`. -/
def QueuedBehind (b : Broker) (U : String → Prop) (k : String) (e : String × PendingRequest) : Prop :=
  b.locks.Behind (fun f => U f.2.requestUuid) k e

/-- What the broker grants on its way from `b` to `b'` of `k` goes to the requests in `U`. -/
def GrantsOnlyTo (U : String → Prop) (k : String) (b b' : Broker) : Prop :=
  ∃ new, b'.grants = new ++ b.grants ∧ ∀ g ∈ new, g.key = k → U g.requestUuid

theorem GrantsOnlyTo.trans {b₁ b₂ b₃ : Broker} (h₁ : GrantsOnlyTo U k b₁ b₂) (h₂ : GrantsOnlyTo U k b₂ b₃) :
    GrantsOnlyTo U k b₁ b₃ := by
  obtain ⟨new₁, hg₁, hu₁⟩ := h₁
  obtain ⟨new₂, hg₂, hu₂⟩ := h₂
  refine ⟨new₂ ++ new₁, by rw [hg₂, hg₁, List.append_assoc], fun g hg => ?_⟩
  rcases List.mem_append.1 hg with hg | hg
  · exact hu₂ g hg
  · exact hu₁ g hg

/-- On its way from `b` to `b'` the broker grants `k` to the request `x`, and before that to requests in `U` only. -/
def GrantsInTurn (U : String → Prop) (k x : String) (b b' : Broker) : Prop :=
  ∃ late own early, b'.grants = late ++ own :: early ++ b.grants ∧ own.key = k ∧ own.requestUuid = x ∧
    ∀ g ∈ early, g.key = k → U g.requestUuid

/-- The actions have given `k` to requests in `U` only. -/
def Grants (U : String → Prop) (k : String) (log : List Action) : Prop :=
  ∀ g ∈ log.flatMap Action.grants, g.key = k → U g.requestUuid

/-- What is known of `e` after some actions: it waits behind those in `U`, or has left, for good. -/
def Watched (ok : Action → Prop) (U : String → Prop) (k : String) (e : String × PendingRequest) (log : List Action)
    (t : LockTable) : Prop :=
  t.Behind (fun f => U f.2.requestUuid) k e ∧ Grants U k log ∨
  ¬t.Waits k e.1 e.2 ∧ (∀ first, ¬ok (.enqueue k e.2 first)) ∧ (ok (.withdraw k e.1) ∨ ∃ early g late,
    log = early ++ .grantHead g e.2 :: late ∧ g.key = k ∧ g.requestUuid = e.2.requestUuid ∧ Grants U k early)

theorem Watched.step {cfg : BrokerConfig} {floor : Nat} {t t' : LockTable} {a : Action} {log : List Action}
    (hp : e.2.isComposite = false) (hback : (∀ a, ok a → a.ComesIn) ∨ ∀ first, ¬ok (.enqueue k e.2 first))
    (hfirst : ∀ p, ok (.enqueue k p true) → U p.requestUuid)
    (hgrant : ∀ g terms, ok (.grant g terms) → g.key = k → U g.requestUuid) (hw : Watched ok U k e log t) (ha : ok a)
    (hs : Step cfg floor t a t') : Watched ok U k e (log ++ [a]) t' := by
  rcases hw with ⟨ht, hlog⟩ | ⟨hgone, hno, hleft⟩
  · rcases hs.behind ht hp fun p he => hfirst p (he ▸ ha) with ⟨hb, hg⟩ | ⟨hgone, hleaves⟩
    · refine .inl ⟨hb, fun g hmem hk => ?_⟩
      rw [List.flatMap_append, List.mem_append] at hmem
      rcases hmem with hmem | hmem
      · exact hlog g hmem hk
      · rcases hg g (by simpa using hmem) hk with ⟨terms, he⟩ | ⟨f, hf, hu⟩
        · exact hgrant g terms (he ▸ ha) hk
        · rw [hu]
          exact hf
    · have hno := hback.resolve_left fun hall => by
        rcases hleaves with rfl | ⟨g, rfl, _⟩ <;> exact hall _ ha
      refine .inr ⟨hgone, hno, ?_⟩
      rcases hleaves with rfl | ⟨g, rfl, hk, hu⟩
      · exact .inl ha
      · exact .inr ⟨log, g, [], rfl, hk, hu, hlog⟩
  · refine .inr ⟨fun hw => hgone (hs.waits_back hw hp fun first he => hno first (he ▸ ha)), hno, hleft.imp_right ?_⟩
    rintro ⟨early, g, late, rfl, hown⟩
    exact ⟨early, g, late ++ [a], by simp, hown⟩

/-- A run of the machine: `e` waits all along, or leaves. -/
theorem Does.watched (h : b.Does env given ok b') (hp : e.2.isComposite = false) (hb : b.QueuedBehind U k e)
    (hback : (∀ a, ok a → a.ComesIn) ∨ ∀ first, ¬ok (.enqueue k e.2 first))
    (hfirst : ∀ p, ok (.enqueue k p true) → U p.requestUuid)
    (hgrant : ∀ g terms, ok (.grant g terms) → g.key = k → U g.requestUuid) :
    b'.QueuedBehind U k e ∧ GrantsOnlyTo U k b b' ∨
    ¬b'.locks.Waits k e.1 e.2 ∧ (ok (.withdraw k e.1) ∨ GrantsInTurn U k e.2.requestUuid b b') := by
  obtain ⟨as, has⟩ := h.run
  have hstart : Watched ok U k e [] b.locks := .inl ⟨hb, fun g hg => by cases hg⟩
  rcases has.trace.inv_log (fun log t a t' hm hs hw => hw.step hp hback hfirst hgrant (has.ok a hm) hs) hstart with
    ⟨hb', hg⟩ | ⟨hgone, _, hleft⟩
  · exact .inl ⟨hb', _, has.grants, fun g hmem => hg g (by simpa using hmem)⟩
  · refine .inr ⟨hgone, hleft.imp_right ?_⟩
    rintro ⟨early, g, late, he, hk, hu, hg⟩
    obtain rfl : as = _ := he
    refine ⟨(late.flatMap Action.grants).reverse, g, (early.flatMap Action.grants).reverse, ?_, hk, hu,
      fun g hmem => hg g (List.mem_reverse.1 hmem)⟩
    rw [has.grants]
    simp [Action.grants]

end Broker

/-- The request a step lets past the queue by its nature: one with `force`, or a composite. -/
def Op.outOfTurn : Op → Option String
  | .request _ (.lock uuid (some _) none _ _ _ force ..) _ => if force then some uuid else none
  | .request _ (.lock uuid none (some _) ..) _ => some uuid
  | _ => none

/-- A lock request of this key alone without `force`, or a writer's, finds that the key cannot take it at once. -/
def Op.InTurn (b : Broker) (key : String) : Op → Prop
  | .request _ (.lock _ (some k) none _ _ max force ..) _ => k = key → force = true ∨ b.admitsNow key max = false
  | .request _ (.registerWrite _ k) _ => k = key → b.isFree key = false
  | _ => True

namespace Broker

variable {env : Env} {b b' : Broker} {U : String → Prop} {k : String} {e : String × PendingRequest}

/-- The queue of a key someone waits for is not empty. -/
theorem QueuedBehind.not_isEmpty (h : b.QueuedBehind U k e) : (b.locks[k]?.all fun l => l.queue.isEmpty) = false := by
  obtain ⟨l, hl, hmem⟩ := LockTable.Behind.waits h
  rw [hl, Option.all_some, LinkedQueue.isEmpty]
  cases hq : l.queue.entries with
  | nil => rw [hq] at hmem; cases hmem
  | cons f rest => rfl

/-- The operation leaves `e` where it is, and grants `k` to requests in `U` only; or `e` leaves, with its client or
in its turn. -/
def KeepsOrder (env : Env) (U : String → Prop) (k : String) (e : String × PendingRequest) (b : Broker) (op : Op) :
    Prop :=
  (b.apply env op).QueuedBehind U k e ∧ GrantsOnlyTo U k b (b.apply env op) ∨
  ¬(b.apply env op).locks.Waits k e.1 e.2 ∧ ((∃ client, op = .dropClient client ∧ b.dropsWaiter client k e.1) ∨
    GrantsInTurn U k e.2.requestUuid b (b.apply env op))

/-- **One operation.** -/
theorem keepsOrder_of_inTurn (hp : e.2.isComposite = false) (hb : b.QueuedBehind U k e) {op : Op}
    (hop : op.InTurn b k) (hU : ∀ u, op.outOfTurn = some u → U u) : KeepsOrder env U k e b op := by
  have h : b.Does env op.given (op.Acts b) (b.apply env op) := apply_acts op
  have hq := hb.not_isEmpty
  -- releases, and what they wake, queue nobody and let nobody in
  have rest : ∀ taken : String → String → Prop, (∀ a, op.Acts b a → Wakes taken a ∨ a.Prunes ∨ a.Detaches) →
      (taken k e.1 → ∃ client, op = .dropClient client ∧ b.dropsWaiter client k e.1) → KeepsOrder env U k e b op := by
    intro taken hacts htaken
    refine (h.watched hp hb (.inr fun first ha => ?_) (fun p ha => ?_) fun g terms ha => ?_).imp_right
      fun hl => ⟨hl.1, hl.2.imp_left fun ha => htaken ?_⟩
    · rcases hacts _ ha with (ha | ha) | ha | ha <;> exact False.elim ha
    · rcases hacts _ ha with (ha | ha) | ha | ha <;> exact False.elim ha
    · rcases hacts _ ha with (ha | ha) | ha | ha <;> exact False.elim ha
    · rcases hacts _ ha with (ha | ha) | ha | ha <;> first | exact ha | exact False.elim ha
  have nobody : (∀ a, op.Acts b a → Wakes (fun _ _ => False) a ∨ a.Prunes ∨ a.Detaches) → KeepsOrder env U k e b op :=
    fun hacts => rest _ hacts False.elim
  -- a request for one key is let in under its test only
  have comesIn : (∀ a, op.Acts b a → a.ComesIn) → (∀ p, op.Acts b (.enqueue k p true) → U p.requestUuid) →
      (∀ g terms, op.Acts b (.grant g terms) → g.key = k → U g.requestUuid) → KeepsOrder env U k e b op := by
    intro hin hfirst hgrant
    refine (h.watched hp hb (.inl hin) hfirst hgrant).imp_right fun hl => ⟨hl.1, hl.2.imp_left fun ha => ?_⟩
    exact False.elim (hin (.withdraw k e.1) ha)
  have registers : ∀ {client : ClientId} {uuid key : String} {mode : Mode} {test : Bool},
      (∀ a, op.Acts b a → a.Registers client uuid key mode test) → (key = k → test = false) →
      KeepsOrder env U k e b op := by
    intro client uuid key mode test hacts htest
    refine comesIn (fun a ha => ?_) (fun p ha => ?_) fun g terms ha hk => ?_
    · have ha := hacts a ha
      cases a <;> trivial
    · cases (hacts _ ha).2.2.2.2
    · obtain ⟨hkey, _, _, _, ht⟩ := hacts _ ha
      rw [htest (hkey.symm.trans hk)] at ht
      cases ht
  cases op with
  | registerClient => exact nobody fun _ ha => False.elim ha
  | registerClientWithId id => exact nobody fun _ ha => False.elim ha
  | detachLockFromClient client u => exact nobody fun _ ha => False.elim ha
  | dropClient client => exact rest _ (fun _ ha => .inl ha) fun ht => ⟨client, rfl, ht⟩
  | detachLockOwner u => exact nobody fun _ ha => .inr (.inr ha)
  | tickTtl now => exact nobody fun _ ha => ha.imp_right .inl
  | request client r overrides =>
    cases r with
    | lock uuid key keys pid ttl max force retry keep wait =>
      cases key <;> cases keys
      · exact nobody fun _ ha => False.elim ha
      · -- a composite may take a free key where others wait
        have hmem := hU uuid rfl
        refine (h.watched hp hb (.inr fun first ha => ?_) (fun p ha => ?_) fun g terms ha _ => ?_).imp_right
          fun hl => ⟨hl.1, hl.2.imp_left fun ha => ?_⟩
        · rcases ha with ⟨_, ha⟩ | ha | ha
          · exact False.elim ha
          · cases hp.symm.trans ha.2.1
          · exact False.elim ha
        · rcases ha with ⟨_, ha⟩ | ha | ha
          · exact False.elim ha
          · cases ha.1
          · exact False.elim ha
        · rcases ha with ⟨_, ha⟩ | ha | ha
          · rw [ha.2.1]
            exact hmem
          · exact False.elim ha
          · exact False.elim ha
        · rcases ha with ⟨_, ha⟩ | ha | ha <;> exact False.elim ha
      · rename_i key
        refine comesIn (fun a ha => ?_) (fun p ha => ?_) fun g terms ha hk => ?_
        · cases a <;> trivial
        · obtain ⟨_, _, hu, _, hforce, _⟩ := ha
          rw [hu]
          exact hU uuid (if_pos hforce.symm)
        · obtain ⟨hkey, _, hu, _, hadmits⟩ := ha
          have hkey : key = k := hkey.symm.trans hk
          rcases hop hkey with hforce | hfull
          · rw [hu]
            exact hU uuid (if_pos hforce)
          · rw [hkey, hfull] at hadmits
            cases hadmits
      · exact nobody fun _ ha => False.elim ha
    | registerRead uuid key => exact registers (fun _ ha => ha) fun hk => by rw [hk, hq]
    | registerWrite uuid key => exact registers (fun _ ha => ha) fun hk => by rw [hk, hop hk]
    | unlock uuid key keys lockUuid force => exact nobody fun _ ha => .inl ha
    | endRead uuid key => exact nobody fun _ ha => .inl ha
    | endWrite uuid key => exact nobody fun _ ha => .inl ha
    | _ => exact nobody fun _ ha => False.elim ha

theorem RunWhile.queuedBehind {ops : List Op} (hp : e.2.isComposite = false)
    (h : RunWhile (fun b op => op.InTurn b k) (fun b => b.locks.Waits k e.1 e.2) b ops b') (hb : b.QueuedBehind U k e)
    (hU : ∀ op ∈ ops, ∀ u, op.outOfTurn = some u → U u) : b'.QueuedBehind U k e ∧ GrantsOnlyTo U k b b' := by
  induction h with
  | nil b => exact ⟨hb, [], rfl, by simp⟩
  | cons env op hok hstay _ ih =>
    obtain ⟨hb₁, hg₁⟩ := (keepsOrder_of_inTurn hp hb hok (hU op List.mem_cons_self)).resolve_right fun h => h.1 hstay
    obtain ⟨hb₂, hg₂⟩ := ih hb₁ fun op' hmem => hU op' (List.mem_cons_of_mem _ hmem)
    exact ⟨hb₂, hg₁.trans hg₂⟩

/-- **First in, first out.** While a request for one key stays queued, through any
run in which those that come to that key are not let in at once, the key is granted
to no request that was not before it, unless that is a composite or sets `force`. In
the operation in which it leaves the queue, if not because its client is dropped, the
same holds of what is granted before the key is granted to it. -/
theorem RunWhile.granted_in_order {ops : List Op} {key x y : String} {p : PendingRequest} {l : LockState}
    {pre post : List (String × PendingRequest)} (hl : b.locks[key]? = some l)
    (hq : l.queue.entries = pre ++ (x, p) :: post) (hp : p.isComposite = false)
    (h : RunWhile (fun b op => op.InTurn b key) (fun b => b.locks.Waits key x p) b ops b')
    (hy : ∀ f ∈ pre, f.2.requestUuid ≠ y) (hturn : ∀ op ∈ ops, op.outOfTurn ≠ some y) :
    (∃ new, b'.grants = new ++ b.grants ∧ ∀ g ∈ new, g.key = key → g.requestUuid ≠ y) ∧
    ∀ env op, op.InTurn b' key → op.outOfTurn ≠ some y → ¬(b'.apply env op).locks.Waits key x p →
      (∃ client, op = .dropClient client ∧ b'.dropsWaiter client key x) ∨
      ∃ late own early, (b'.apply env op).grants = late ++ own :: early ++ b'.grants ∧ own.key = key ∧
        own.requestUuid = p.requestUuid ∧ ∀ g ∈ early, g.key = key → g.requestUuid ≠ y := by
  have hb : b.QueuedBehind (· ≠ y) key (x, p) := ⟨l, hl, pre, post, hq, hy⟩
  have hU : ∀ op : Op, op.outOfTurn ≠ some y → ∀ u, op.outOfTurn = some u → u ≠ y :=
    fun op hop u hu he => hop (hu.trans (congrArg some he))
  obtain ⟨hb', hnew⟩ := RunWhile.queuedBehind (e := (x, p)) hp h hb fun op hop => hU op (hturn op hop)
  refine ⟨hnew, fun env op hop hne hgone => ?_⟩
  rcases keepsOrder_of_inTurn (e := (x, p)) hp hb' hop (hU op hne) with ⟨hb₁, _⟩ | ⟨_, hleft⟩
  · exact absurd hb₁.waits hgone
  · exact hleft

/-- One client holds the key and a second waits. -/
def Sample.oneWaits : Broker := Sample.after [Sample.ask 1 (Sample.lock "r" "k"), Sample.ask 2 (Sample.lock "s" "k")]

/-- A third client comes. -/
def Sample.twoWait : Broker := Sample.oneWaits.apply Sample.env (Sample.ask 3 (Sample.lock "t" "k"))

/-- The third is not granted; when the first unlocks, the key goes to the second. -/
theorem RunWhile.granted_in_order_waits :
    (∃ new, Sample.twoWait.grants = new ++ Sample.oneWaits.grants ∧ ∀ g ∈ new, g.key = "k" → g.requestUuid ≠ "t") ∧
    ∃ late own early, (Sample.twoWait.apply Sample.env (Sample.ask 1 (Sample.unlock "u" "k" "uu"))).grants =
        late ++ own :: early ++ Sample.twoWait.grants ∧
      own.key = "k" ∧ own.requestUuid = "s" ∧ ∀ g ∈ early, g.key = "k" → g.requestUuid ≠ "t" := by
  have hone : Sample.oneWaits.locks["k"]?.map (fun l => l.queue.entries) =
      some ([] ++ ("s", Sample.waiter 2 "s" .exclusive) :: []) := by decide +kernel
  have htwo : Sample.twoWait.locks["k"]?.map (fun l => l.queue.entries) =
      some [("s", Sample.waiter 2 "s" .exclusive), ("t", Sample.waiter 3 "t" .exclusive)] := by decide +kernel
  have hgone : (Sample.twoWait.apply Sample.env (Sample.ask 1 (Sample.unlock "u" "k" "uu"))).locks["k"]?.map
      (fun l => l.queue.entries) = some [("t", Sample.waiter 3 "t" .exclusive)] := by decide +kernel
  obtain ⟨l, hl, hq⟩ := Option.map_eq_some_iff.1 hone
  obtain ⟨l₁, hl₁, hq₁⟩ := Option.map_eq_some_iff.1 htwo
  obtain ⟨l₂, hl₂, hq₂⟩ := Option.map_eq_some_iff.1 hgone
  have hrun : RunWhile (fun b op => op.InTurn b "k") (fun b => b.locks.Waits "k" "s" (Sample.waiter 2 "s" .exclusive))
      Sample.oneWaits [Sample.ask 3 (Sample.lock "t" "k")] Sample.twoWait :=
    .cons Sample.env _ (fun _ => .inr (by decide +kernel)) ⟨l₁, hl₁, by rw [hq₁]; decide⟩ (.nil _)
  obtain ⟨hnew, hleaves⟩ := granted_in_order (y := "t") hl hq rfl hrun (by simp) (by decide)
  have hunlock := hleaves Sample.env (Sample.ask 1 (Sample.unlock "u" "k" "uu")) trivial (by decide)
  refine ⟨hnew, (hunlock ?_).resolve_left ?_⟩
  · rintro ⟨l₃, hl₃, hmem⟩
    obtain rfl := Option.some.inj (hl₂.symm.trans hl₃)
    rw [hq₂] at hmem
    exact absurd hmem (by decide)
  · rintro ⟨client, he, _⟩
    cases he

/-- A writer waits for a semaphore's holder to leave, and a lock request that finds
room for a second holder is let in past it. -/
theorem granted_past_writer :
    Reachable Sample.config (Sample.after [Sample.ask 1 (Sample.lockMax "r" "k" 2),
      Sample.ask 2 (.registerWrite "s" "k")]) ∧
    (Sample.after [Sample.ask 1 (Sample.lockMax "r" "k" 2), Sample.ask 2 (.registerWrite "s" "k")]).locks["k"]?.map
      (fun l => l.queue.entries) = some [("s", Sample.waiter 2 "s" .writer)] ∧
    (Sample.after [Sample.ask 1 (Sample.lockMax "r" "k" 2), Sample.ask 2 (.registerWrite "s" "k"),
      Sample.ask 3 (Sample.lock "t" "k")]).locks["k"]?.map (fun l => l.queue.entries) =
        some [("s", Sample.waiter 2 "s" .writer)] ∧
    ∃ g, (Sample.after [Sample.ask 1 (Sample.lockMax "r" "k" 2), Sample.ask 2 (.registerWrite "s" "k"),
        Sample.ask 3 (Sample.lock "t" "k")]).grants =
      g :: (Sample.after [Sample.ask 1 (Sample.lockMax "r" "k" 2), Sample.ask 2 (.registerWrite "s" "k")]).grants ∧
      g.key = "k" ∧ g.requestUuid = "t" :=
  ⟨Sample.reachable_after _, by decide +kernel, by decide +kernel, ⟨"k", 3, "t", "uuu", 1, 2⟩,
    by decide +kernel, rfl, rfl⟩

end Broker

end LiveMutex
