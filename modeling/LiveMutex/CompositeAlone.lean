/-
A composite hold is alone on its key. A composite is granted an empty key only,
but a later lock request of that key compares the number of holders with `max`,
which another request may have raised: then it is let in beside the composite.

The hold stays alone as long as keys in use by composites (held, or still needed
by one that waits) keep a `max` of one.
-/
import LiveMutex.Guards
import LiveMutex.Sample
import LiveMutex.Sane
import LiveMutex.StepFacts

namespace LiveMutex

namespace LockTable

/-- A waiting composite still needs the key. -/
def Needed (t : LockTable) (k : String) : Prop :=
  ∃ q x p c, t.Waits q x p ∧ p.kind = .composite c ∧ k ∈ c.remainingKeys

/-- A composite is on the key: one holds it, or still needs it. -/
def Composed (t : LockTable) (k : String) : Prop :=
  (∃ (l : LockState) (u : String) (h : ExclusiveHolder), t[k]? = some l ∧ l.exclusiveHolders[u]? = some h ∧
    h.compositeMember = true) ∨ t.Needed k

end LockTable

/-- A composite's hold has the key to itself, and the key has room for one. -/
def LockState.Alone (l : LockState) : Prop :=
  ∀ (u : String) (h : ExclusiveHolder), l.exclusiveHolders[u]? = some h → h.compositeMember = true →
    l.max = 1 ∧ ∀ (v : String) (h' : ExclusiveHolder), l.exclusiveHolders[v]? = some h' → v = u

namespace LockState.Alone

variable {cfg : BrokerConfig} {l l' : LockState}

/-- No holder that was not there before. -/
theorem shrink (h : l.Alone) (hm : l'.max = l.max) (hh : ∀ (v : String) (h' : ExclusiveHolder),
    l'.exclusiveHolders[v]? = some h' → ∃ h₀ : ExclusiveHolder, l.exclusiveHolders[v]? = some h₀ ∧
      h₀.compositeMember = h'.compositeMember) : l'.Alone := by
  intro u h' hu hc
  obtain ⟨h₀, hu₀, hc₀⟩ := hh u h' hu
  obtain ⟨hmax, hall⟩ := h u h₀ hu₀ (hc₀.trans hc)
  refine ⟨hm.trans hmax, fun v h'' hv => ?_⟩
  obtain ⟨h₁, hv₁, _⟩ := hh v h'' hv
  exact hall v h₁ hv₁

theorem of_empty (he : l.exclusiveHolders = ∅) : l.Alone := by
  intro u h hu
  rw [he] at hu
  simp at hu

/-- A key that admits an exclusive request has no composite on it. -/
theorem no_member (h : l.Alone) (ha : l.admits .exclusive = true) {u : String} {holder : ExclusiveHolder}
    (hu : l.exclusiveHolders[u]? = some holder) : holder.compositeMember = false := by
  rw [← Bool.not_eq_true]
  intro hc
  obtain ⟨hmax, hall⟩ := h u holder hu hc
  simp only [admits, Bool.and_eq_true, decide_eq_true_eq] at ha
  have hsize : l.exclusiveHolders.size = 1 := OrdMap.size_eq_one hu hall
  have h2 := ha.2
  rw [hsize, hmax] at h2
  exact absurd h2 (by decide)

theorem take {terms : Terms} {g : Grant} (h : l.Alone) (ha : l.admits terms.mode = true)
    (hm : terms.mode = .member → l.max = 1) : (l.take terms g).Alone := by
  unfold LockState.take
  dsimp only
  rw [nextOrForcedFencingToken_eq]
  generalize (l.nextOrForcedFencingToken terms.forced).1.fencingCounter = counter
  cases hmode : terms.mode <;> rw [hmode] at ha
  case exclusive =>
    -- nobody on the key is a composite, the new holder neither
    intro u holder hu hc
    simp only [holdExclusive, OrdMap.get_insert] at hu
    split at hu
    · obtain rfl := Option.some.inj hu
      cases hc
    · rw [h.no_member ha hu] at hc
      cases hc
  case member =>
    simp only [admits, vacant, Bool.and_eq_true] at ha
    intro u holder _ _
    have honly : ∀ (v : String) (h' : ExclusiveHolder),
        (l.exclusiveHolders.insert g.lockUuid (⟨g.client, terms.pid, g.token, terms.keepLocksAfterDeath, true⟩ :
          ExclusiveHolder))[v]? = some h' → v = g.lockUuid := by
      intro v h' hv
      rw [OrdMap.get_insert] at hv
      split at hv
      · rename_i he
        exact he.symm
      · rw [OrdMap.get_eq_none_of_isEmpty ha.2] at hv
        cases hv
    rename_i hu _
    exact ⟨hm hmode, fun v h' hv => (honly v h' hv).trans (honly u holder hu).symm⟩
  case reader => exact h.shrink rfl fun v h' hv => ⟨h', hv, rfl⟩
  case writer => exact h.shrink rfl fun v h' hv => ⟨h', hv, rfl⟩

theorem removeForKind (h : l.Alone) (u : String) (kind : RwHoldKind) : (l.removeForKind u kind).Alone := by
  refine h.shrink (l.removeForKind_max u kind) fun v h' hv => ⟨h', ?_, rfl⟩
  cases kind with
  | exclusive =>
    simp only [LockState.removeForKind, removeExclusive, OrdMap.get_erase] at hv
    split at hv
    · cases hv
    · exact hv
  | read => exact hv
  | write =>
    unfold LockState.removeForKind at hv
    dsimp only at hv
    split at hv <;> exact hv

theorem detachOwner (h : l.Alone) (u : String) : (l.detachOwner u).Alone := by
  refine h.shrink rfl fun v h' hv => ?_
  simp only [LockState.detachOwner, Std.ExtTreeMap.getElem?_modify, compare_eq_iff_eq] at hv
  split at hv
  · rename_i he
    subst he
    obtain ⟨h₀, hh₀, rfl⟩ := Option.map_eq_some_iff.1 hv
    exact ⟨h₀, hh₀, rfl⟩
  · exact ⟨h', hv, rfl⟩

end LockState.Alone

/-- Keys that composites are on have a `max` of one, those yet to be made too. -/
structure LockTable.Apart (d : Nat) (t : LockTable) : Prop where
  alone : AllLocks (fun _ l => l.Alone) t
  needed : ∀ k, t.Needed k → d = 1 ∧ ∀ l, t[k]? = some l → l.max = 1

/-- What an action must not do to the keys of composites. -/
def Action.KeepsApart (d : Nat) (t : LockTable) : Action → Prop
  | .setMax k m => m = 1 ∨ ¬t.Composed k
  | .grant g terms => terms.mode = .member → ∀ l, t[g.key]? = some l → l.max = 1
  | .enqueue _ p _ => ∀ c, p.kind = .composite c → ∀ k ∈ c.allKeys, d = 1 ∧ ∀ l, t[k]? = some l → l.max = 1
  | _ => True

namespace LockTable.Apart

variable {cfg : BrokerConfig} {floor : Nat} {t t' : LockTable} {a : Action}

/-- The head of a queue takes its key. -/
theorem take_head {d : Nat} {g : Grant} {p : PendingRequest} {l : LockState} (h : t.Apart d)
    (hl : t[g.key]? = some l) (hg : g.For p l)
    (hstands : ∀ c, p.kind = .composite c → g.key ∈ c.remainingKeys) : (l.pop.take (p.terms g.key) g).Alone := by
  have hpop : l.pop.Alone := (h.alone _ _ hl).shrink rfl fun v h' hv => ⟨h', hv, rfl⟩
  refine hpop.take (by rw [LockState.admits_pop]; exact hg.admits) fun hm => ?_
  cases hk : p.kind with
  | composite c =>
    obtain ⟨x, hx, hw⟩ := Step.waits_head hl hg
    exact (h.needed g.key ⟨g.key, x, p, c, hw, hk, hstands c hk⟩).2 l hl
  | _ => simp [PendingRequest.terms, hk] at hm

theorem alone_step (h : Step cfg floor t a t') (ht : t.Apart cfg.defaultMax) (ha : a.KeepsApart cfg.defaultMax t) :
    AllLocks (fun _ l => l.Alone) t' := by
  have same : ∀ {k : String} {l l' : LockState}, t[k]? = some l → l'.max = l.max →
      l'.exclusiveHolders = l.exclusiveHolders → AllLocks (fun _ l => l.Alone) (t.insert k l') := by
    intro k l l' hl hm he
    refine ht.alone.insert ((ht.alone _ _ hl).shrink hm fun v h' hv => ⟨h', ?_, rfl⟩)
    rw [← he]
    exact hv
  cases h with
  | create _ hl => exact ht.alone.insert (.of_empty hl.exclusiveHolders)
  | @setMax key l m hl _ _ =>
    refine ht.alone.insert fun u holder hu hc => ?_
    rcases ha with rfl | hfree
    · exact ⟨rfl, ((ht.alone _ _ hl) u holder hu hc).2⟩
    · exact absurd (.inl ⟨l, u, holder, hl, hu, hc⟩) hfree
  | stamp hl _ => exact same hl rfl rfl
  | grant hl hadm _ => exact ht.alone.insert ((ht.alone _ _ hl).take hadm fun hm => ha hm _ hl)
  | grantHead hl hp hg _ =>
    refine ht.alone.insert (ht.take_head hl hg fun c hc => ?_)
    simp [PendingRequest.isComposite, hc] at hp
  | finish hl hp hr hg _ =>
    refine ht.alone.insert (ht.take_head hl hg fun c' hc' => ?_)
    rw [hp] at hc'
    obtain rfl := PendingKind.composite.inj hc'
    simp [hr]
  | @advance g p c next rest l l' hl hp hr hg _ hl' =>
    have hkey : ∀ c', p.kind = .composite c' → g.key ∈ c'.remainingKeys := by
      intro c' hc'
      rw [hp] at hc'
      obtain rfl := PendingKind.composite.inj hc'
      simp [hr]
    have htaken : AllLocks (fun _ l => l.Alone) (t.insert g.key (l.pop.take (p.terms g.key) g)) :=
      ht.alone.insert (ht.take_head hl hg hkey)
    have hnext : l'.Alone := by
      rcases hl' with hl' | ⟨_, hf⟩
      · exact htaken _ _ hl'
      · exact .of_empty hf.exclusiveHolders
    exact htaken.insert (hnext.shrink rfl fun v h' hv => ⟨h', hv, rfl⟩)
  | @enqueue key p l first hl _ =>
    cases first
    · exact same hl rfl rfl
    · exact same hl rfl rfl
  | withdraw hl => exact same hl rfl rfl
  | release hl => exact ht.alone.insert ((ht.alone _ _ hl).removeForKind _ _)
  | wipe hl => exact ht.alone.insert (.of_empty rfl)
  | detach => exact ht.alone.map fun _ _ hl => hl.detachOwner _
  | prune => exact ht.alone.erase

theorem needed_step (h : Step cfg floor t a t') (ht : t.Apart cfg.defaultMax) (ha : a.KeepsApart cfg.defaultMax t)
    {k : String} (hk : t'.Needed k) : cfg.defaultMax = 1 ∧ ∀ l, t'[k]? = some l → l.max = 1 := by
  -- the `max` of the key is still one, whatever the reason for needing it
  have stays : (cfg.defaultMax = 1 ∧ ∀ l, t[k]? = some l → l.max = 1) → (∀ m, a = .setMax k m → m = 1) →
      cfg.defaultMax = 1 ∧ ∀ l, t'[k]? = some l → l.max = 1 := by
    intro ⟨hd, hmax⟩ hset
    refine ⟨hd, fun l hl => ?_⟩
    rcases h.max_cases hl with ⟨l₀, hl₀, hm⟩ | ⟨_, hm⟩ | ⟨m, he, hm⟩
    · exact hm.trans (hmax l₀ hl₀)
    · exact hm.trans hd
    · exact hm.trans (hset m he)
  have before : t.Needed k → cfg.defaultMax = 1 ∧ ∀ l, t'[k]? = some l → l.max = 1 := by
    intro hk
    refine stays (ht.needed k hk) fun m he => ?_
    subst he
    exact ha.resolve_right fun hfree => hfree (.inr hk)
  obtain ⟨q, x, p, c, hw, hp, hmem⟩ := hk
  rcases h.waits hw with hw | ⟨first, rfl, hstarts, _⟩ | ⟨g, p₀, c₀, y, rest, rfl, hw₀, hp₀, hr, rfl, _⟩
  · exact before ⟨q, x, p, c, hw, hp, hmem⟩
  · obtain ⟨_, _, _, hr, _, _⟩ := hstarts c hp
    rw [hr] at hmem
    exact stays (ha c hp k hmem) nofun
  · obtain rfl := PendingKind.composite.inj hp
    exact before ⟨g.key, y, p₀, c₀, hw₀, hp₀, List.mem_of_mem_tail hmem⟩

theorem step (h : Step cfg floor t a t') (ht : t.Apart cfg.defaultMax) (ha : a.KeepsApart cfg.defaultMax t) :
    t'.Apart cfg.defaultMax :=
  ⟨ht.alone_step h ha, fun _ hk => ht.needed_step h ha hk⟩

end LockTable.Apart

/-- A lock request of one key gives it a `max` of one, or no composite is on
the key; the keys of a composite request have a `max` of one, and so do new keys. -/
def Op.LeavesRoomForOne (b : Broker) : Op → Prop
  | .request _ (.lock _ (some key) none _ _ max ..) _ => b.level key max = 1 ∨ ¬b.locks.Composed key
  | .request _ (.lock _ none (some keys) ..) _ =>
    b.config.defaultMax = 1 ∧ ∀ k ∈ keys, ∀ l, b.locks[k]? = some l → l.max = 1
  | _ => True

namespace Broker

variable {env : Env} {b b' : Broker} {given : Option String} {ok : Action → Prop}

/-- What every action keeps apart, with whatever else the actions keep, the run does. -/
theorem apart_does {J : LockTable → Prop} (h : b.Does env given ok b') (hb : b.locks.Apart b.config.defaultMax)
    (hj : J b.locks)
    (hstep : ∀ t a t', ok a → Step b.config b.fencingWatermark t a t' → t.Apart b.config.defaultMax → J t →
      a.KeepsApart b.config.defaultMax t ∧ J t') : b'.locks.Apart b.config.defaultMax := by
  have hall : b'.locks.Apart b.config.defaultMax ∧ J b'.locks := by
    refine h.inv (I := fun t => t.Apart b.config.defaultMax ∧ J t) (fun t a t' ho hs ht => ?_) ⟨hb, hj⟩
    obtain ⟨hkeeps, hj'⟩ := hstep t a t' ho hs ht.1 ht.2
    exact ⟨ht.1.step hs hkeeps, hj'⟩
  exact hall.1

/-- Actions that never break anything. -/
theorem apart_does_of_keeps (h : b.Does env given ok b') (hb : b.locks.Apart b.config.defaultMax)
    (hok : ∀ t a, ok a → a.KeepsApart b.config.defaultMax t) : b'.locks.Apart b.config.defaultMax :=
  apart_does (J := fun _ => True) h hb trivial fun t a _ ho _ _ _ => ⟨hok t a ho, trivial⟩

/-- A lock request of one key puts no composite on it. -/
theorem composed_of_locksKey {cfg : BrokerConfig} {floor : Nat} {t t' : LockTable} {a : Action} {client : ClientId}
    {uuid key k : String} {max : Option Nat} {force : Bool} (ha : a.LocksKey b client uuid key max force)
    (h : Step cfg floor t a t') (hk : t'.Composed k) : t.Composed k := by
  rcases hk with ⟨l', u, holder, hl', hu, hc⟩ | ⟨q, x, p, c, hw, hp, hmem⟩
  · refine .inl ?_
    -- the holders of an entry that has been replaced
    have of_insert : ∀ {key : String} {l l₁ : LockState}, t[key]? = some l → (t.insert key l₁)[k]? = some l' →
        (l₁.exclusiveHolders[u]? = some holder → l.exclusiveHolders[u]? = some holder) →
        ∃ (l : LockState) (u : String) (h : ExclusiveHolder), t[k]? = some l ∧ l.exclusiveHolders[u]? = some h ∧
          h.compositeMember = true := by
      intro key l l₁ hl hins hback
      rw [OrdMap.get_insert] at hins
      split at hins
      · rename_i he
        subst he
        obtain rfl := Option.some.inj hins
        exact ⟨l, u, holder, hl, hback hu, hc⟩
      · exact ⟨l', u, holder, hins, hu, hc⟩
    cases h with
    | create _ hl =>
      rw [OrdMap.get_insert] at hl'
      split at hl'
      · obtain rfl := Option.some.inj hl'
        rw [hl.exclusiveHolders] at hu
        simp at hu
      · exact ⟨l', u, holder, hl', hu, hc⟩
    | setMax hl _ _ => exact of_insert hl hl' id
    | stamp hl _ => exact of_insert hl hl' id
    | @grant g terms l hl _ _ =>
      refine of_insert hl hl' fun hu => ?_
      unfold LockState.take at hu
      simp only [ha.2.2.2.1] at hu
      rw [LockState.nextOrForcedFencingToken_eq] at hu
      simp only [LockState.holdExclusive, OrdMap.get_insert] at hu
      split at hu
      · obtain rfl := Option.some.inj hu
        cases hc
      · exact hu
    | @enqueue _ _ _ first hl _ =>
      cases first
      · exact of_insert hl hl' id
      · exact of_insert hl hl' id
    | _ => exact False.elim ha
  · refine .inr ?_
    rcases h.waits hw with hw | ⟨first, rfl, _⟩ | ⟨g, p₀, c₀, y, rest, rfl, _⟩
    · exact ⟨q, x, p, c, hw, hp, hmem⟩
    · rw [ha.2.2.2.1] at hp
      cases hp
    · exact False.elim ha

section

variable {client : ClientId} {uuid key : String} {overrides : GrantOverrides}

theorem apart_locksKey {max : Option Nat} {force : Bool} (hb : b.locks.Apart b.config.defaultMax)
    (hone : b.level key max = 1 ∨ ¬b.locks.Composed key)
    (h : b.Does env given (Action.LocksKey b client uuid key max force) b') :
    b'.locks.Apart b.config.defaultMax := by
  refine apart_does (J := fun t => b.level key max = 1 ∨ ¬t.Composed key) h hb hone
    fun t a t' ha hs _ hj => ⟨?_, hj.imp_right fun hfree hk => hfree (composed_of_locksKey ha hs hk)⟩
  cases a with
  | setMax k m => rw [ha.1, ha.2]; exact hj
  | grant g terms => exact fun hm => by rw [ha.2.2.2.1] at hm; cases hm
  | enqueue k p first => exact fun c hc => by rw [ha.2.2.2.1] at hc; cases hc
  | _ => trivial

theorem apart_locksKeys {keys : List String} (hb : b.locks.Apart b.config.defaultMax)
    (hd : b.config.defaultMax = 1) (hone : ∀ k ∈ keys, ∀ l, b.locks[k]? = some l → l.max = 1)
    (h : b.Does env given (Action.LocksKeys b client uuid overrides keys) b') :
    b'.locks.Apart b.config.defaultMax := by
  refine apart_does (J := fun t => ∀ k ∈ keys, ∀ l, t[k]? = some l → l.max = 1) h hb hone
    fun t a t' ha hs _ hj => ⟨?_, fun k hk l hl => ?_⟩
  · cases a with
    | setMax k m => rcases ha with ⟨_, ha⟩ | ha | ha <;> exact False.elim ha
    | grant g terms =>
      rcases ha with ⟨_, ha⟩ | ha | ha
      · exact fun _ => hj _ ha.2.2.1
      · exact False.elim ha
      · exact False.elim ha
    | enqueue k p first =>
      rcases ha with ⟨_, ha⟩ | ha | ha
      · exact False.elim ha
      · exact fun c hc k' hk' => ⟨hd, hj k' (ha.2.2.2.2.2.2 c hc k' hk')⟩
      · exact False.elim ha
    | _ => trivial
  · rcases hs.max_cases hl with ⟨l₀, hl₀, hm⟩ | ⟨_, hm⟩ | ⟨m, rfl, _⟩
    · exact hm.trans (hj k hk l₀ hl₀)
    · exact hm.trans hd
    · rcases ha with ⟨_, ha⟩ | ha | ha <;> exact False.elim ha

theorem apart_registers {mode : Mode} {test : Bool} (hb : b.locks.Apart b.config.defaultMax) (hm : mode ≠ .member)
    (h : b.Does env given (Action.Registers client uuid key mode test) b') :
    b'.locks.Apart b.config.defaultMax := by
  refine apart_does_of_keeps h hb fun t a ha => ?_
  cases a with
  | setMax k m => exact False.elim ha
  | grant g terms => exact fun hmember => absurd (ha.2.2.2.1.symm.trans hmember) hm
  | enqueue k p first =>
    intro c hc
    have hp := ha.2.2.2.1
    simp [PendingRequest.isComposite, hc] at hp
  | _ => trivial

end

/-- Releases, cascades, detaching and pruning set no `max` and let no one in. -/
theorem apart_wakes (taken : String → String → Prop) (hb : b.locks.Apart b.config.defaultMax)
    (h : b.Does env given (fun a => Wakes taken a ∨ a.Prunes ∨ a.Detaches) b') : b'.locks.Apart b.config.defaultMax := by
  refine apart_does_of_keeps h hb fun t a ha => ?_
  cases a with
  | setMax k m => rcases ha with (ha | ha) | ha | ha <;> exact False.elim ha
  | grant g terms => rcases ha with (ha | ha) | ha | ha <;> exact False.elim ha
  | enqueue k p first => rcases ha with (ha | ha) | ha | ha <;> exact False.elim ha
  | _ => trivial

theorem apart_apply (hb : b.locks.Apart b.config.defaultMax) {op : Op} (hop : op.LeavesRoomForOne b) :
    (b.apply env op).locks.Apart b.config.defaultMax := by
  have h : b.Does env op.given (op.Acts b) (b.apply env op) := apply_acts op
  cases op with
  | registerClient => exact apart_does_of_keeps h hb fun _ _ ha => False.elim ha
  | registerClientWithId id => exact apart_does_of_keeps h hb fun _ _ ha => False.elim ha
  | detachLockFromClient client u => exact apart_does_of_keeps h hb fun _ _ ha => False.elim ha
  | dropClient client => exact apart_wakes _ hb (h.mono fun _ ha => .inl ha)
  | detachLockOwner u => exact apart_wakes (fun _ _ => False) hb (h.mono fun _ ha => .inr (.inr ha))
  | tickTtl now => exact apart_wakes _ hb (h.mono fun _ ha => ha.imp_right .inl)
  | request client r overrides =>
    cases r with
    | lock uuid key keys pid ttl max force retry keep wait =>
      cases key <;> cases keys
      · exact apart_does_of_keeps h hb fun _ _ ha => False.elim ha
      · exact apart_locksKeys hb hop.1 hop.2 h
      · exact apart_locksKey hb hop h
      · exact apart_does_of_keeps h hb fun _ _ ha => False.elim ha
    | registerRead uuid key => exact apart_registers hb (by decide) h
    | registerWrite uuid key => exact apart_registers hb (by decide) h
    | unlock uuid key keys lockUuid force => exact apart_wakes _ hb (h.mono fun _ ha => .inl ha)
    | endRead uuid key => exact apart_wakes _ hb (h.mono fun _ ha => .inl ha)
    | endWrite uuid key => exact apart_wakes _ hb (h.mono fun _ ha => .inl ha)
    | _ => exact apart_does_of_keeps h hb fun _ _ ha => False.elim ha

end Broker

namespace LockState.Alone

theorem restore {l : LockState} (h : l.Alone) (key : String) {cap : Nat} (hcap : 1 ≤ cap) (now : Instant) :
    ((l.snapshot key).restore cap now).Alone := by
  intro u holder hu hc
  rw [restore_exclusiveHolders, Std.ExtTreeMap.getElem?_map] at hu
  obtain ⟨h₀, hu₀, rfl⟩ := Option.map_eq_some_iff.1 hu
  obtain ⟨hmax, hall⟩ := h u h₀ hu₀ hc
  refine ⟨restore_max_one hmax key hcap now, fun v h' hv => ?_⟩
  rw [restore_exclusiveHolders, Std.ExtTreeMap.getElem?_map] at hv
  obtain ⟨h₁, hv₁, _⟩ := Option.map_eq_some_iff.1 hv
  exact hall v h₁ hv₁

end LockState.Alone

/-- A snapshot brings keys of composites back apart. -/
theorem LockTable.Apart.restore {d : Nat} {t : LockTable} (h : t.Apart d) {cap : Nat} (hcap : 1 ≤ cap) (now : Instant) :
    LockTable.Apart d (t.map fun key l => (l.snapshot key).restore cap now) where
  alone key l hl := by
    rw [Std.ExtTreeMap.getElem?_map] at hl
    obtain ⟨l₀, hl₀, rfl⟩ := Option.map_eq_some_iff.1 hl
    exact (h.alone key l₀ hl₀).restore key hcap now
  needed k := by
    intro ⟨q, x, p, c, ⟨l, hl, hm⟩, hp, hmem⟩
    rw [Std.ExtTreeMap.getElem?_map] at hl
    obtain ⟨l₀, hl₀, rfl⟩ := Option.map_eq_some_iff.1 hl
    obtain ⟨e, he, heq⟩ := LockState.mem_restore_queue hm
    obtain ⟨rfl, rfl⟩ := Prod.mk.inj heq
    obtain ⟨hd, hone⟩ := h.needed k ⟨q, e.1, e.2, c, ⟨l₀, hl₀, he⟩, hp, hmem⟩
    refine ⟨hd, fun l' hl' => ?_⟩
    rw [Std.ExtTreeMap.getElem?_map] at hl'
    obtain ⟨l₁, hl₁, rfl⟩ := Option.map_eq_some_iff.1 hl'
    exact LockState.restore_max_one (hone l₁ hl₁) k hcap now

/-- **A composite hold is exclusive**: in every state reached by operations that
leave keys with composites on them a `max` of one, a key a composite holds has
no other exclusive holder. -/
theorem Broker.ReachableBy.composite_alone {cfg : BrokerConfig} {b : Broker}
    (h : ReachableBy cfg (fun b op => op.LeavesRoomForOne b) b) {key u v : String} {l : LockState}
    {holder other : ExclusiveHolder} (hl : b.locks[key]? = some l) (hu : l.exclusiveHolders[u]? = some holder)
    (hc : holder.compositeMember = true) (hv : l.exclusiveHolders[v]? = some other) : v = u := by
  have hapart : b.locks.Apart cfg.defaultMax := by
    clear hl
    induction h with
    | new =>
      refine ⟨fun key l hl => ?_, fun k hk => ?_⟩
      · simp [Broker.new, BrokerState.new] at hl
      · obtain ⟨q, x, p, c, ⟨l, hl, _⟩, _⟩ := hk
        simp [Broker.new, BrokerState.new] at hl
    | apply env op hop hb ih =>
      have hcfg := hb.reachable.config
      rw [← hcfg] at ih ⊢
      exact apart_apply ih hop
    | install env now hb ho hi _ ih =>
      rw [(installBrokerRaftSnapshot_locks (installRaftSnapshot_ok hi).2).1, hb.reachable.config]
      exact ih.restore cfg.one_le_cap _
  exact (hapart.alone key l hl u holder hu hc).2 v other hv

/-- A composite has the key, and the next client waits. -/
theorem Broker.ReachableBy.composite_alone_waits :
    ∃ (l : LockState) (holder : ExclusiveHolder), (Sample.after [Sample.ask 1 (Sample.lockAll "r" ["a", "b"]),
        Sample.ask 2 (Sample.lock "s" "a")]).locks["a"]? = some l ∧ l.exclusiveHolders["u"]? = some holder ∧
      holder.compositeMember = true ∧ l.queue.len = 1 ∧
      ∀ v (other : ExclusiveHolder), l.exclusiveHolders[v]? = some other → v = "u" := by
  have hmeets : Runs.Meets (fun _ b op => op.LeavesRoomForOne b) Sample.env (Broker.new Sample.config)
      [Sample.ask 1 (Sample.lockAll "r" ["a", "b"]), Sample.ask 2 (Sample.lock "s" "a")] := by
    refine ⟨⟨by decide, fun k _ l hl => ?_⟩, .inl (by decide +kernel), trivial⟩
    simp [Broker.new, BrokerState.new] at hl
  have hrun : ReachableBy Sample.config (fun b op => op.LeavesRoomForOne b) (Sample.after _) :=
    applyAll Sample.env _ .new hmeets
  have hstate : ((Sample.after [Sample.ask 1 (Sample.lockAll "r" ["a", "b"]),
      Sample.ask 2 (Sample.lock "s" "a")]).locks["a"]?.any fun l =>
        l.queue.len = 1 && l.exclusiveHolders["u"]?.any fun h => h.compositeMember) = true := by
    decide +kernel
  obtain ⟨l, hl, hq⟩ := (Option.any_eq_true _ _).1 hstate
  obtain ⟨hlen, hany⟩ := Bool.and_eq_true_iff.1 hq
  obtain ⟨holder, hholder, hc⟩ := (Option.any_eq_true _ _).1 hany
  exact ⟨l, holder, hl, hholder, hc, of_decide_eq_true hlen, fun v other hv =>
    composite_alone hrun hl hholder hc hv⟩

/-- Another client asks for room for two on a key a composite holds, and is let in. -/
theorem Broker.composite_joined_by_max :
    Broker.Reachable Sample.config (Sample.after [Sample.ask 1 (Sample.lockAll "r" ["a", "b"]),
      Sample.ask 2 (Sample.lockMax "s" "a" 2)]) ∧
    ∃ (l : LockState) (u v : String) (holder other : ExclusiveHolder), (Sample.after [Sample.ask 1 (Sample.lockAll "r" ["a", "b"]),
        Sample.ask 2 (Sample.lockMax "s" "a" 2)]).locks["a"]? = some l ∧
      l.exclusiveHolders[u]? = some holder ∧ holder.compositeMember = true ∧
      l.exclusiveHolders[v]? = some other ∧ v ≠ u := by
  refine ⟨Sample.reachable_after _, ?_⟩
  have hstate : ((Sample.after [Sample.ask 1 (Sample.lockAll "r" ["a", "b"]),
      Sample.ask 2 (Sample.lockMax "s" "a" 2)]).locks["a"]?.any fun l =>
        (l.exclusiveHolders["u"]?.any fun h => h.compositeMember) &&
        l.exclusiveHolders["uuuu"]?.isSome) = true := by
    decide +kernel
  obtain ⟨l, hl, hboth⟩ := (Option.any_eq_true _ _).1 hstate
  obtain ⟨hany, hsome⟩ := Bool.and_eq_true_iff.1 hboth
  obtain ⟨holder, hholder, hc⟩ := (Option.any_eq_true _ _).1 hany
  obtain ⟨other, hother⟩ := Option.isSome_iff_exists.1 hsome
  exact ⟨l, "u", "uuuu", holder, other, hl, hholder, hc, hother, by decide⟩

end LiveMutex
