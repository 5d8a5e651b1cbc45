/-
`tick_ttl` takes what is due and nothing else: of the locks whose deadline has passed
every key, of all others none, and it counts each lock once. Deadlines of locks that
were let go of are still recorded and are told apart by their lock uuid: in a run with
new uuids a deadline's uuid is one lock's (`LiveMutex.Consistent`), and no waiter has
reserved it (`LiveMutex.Reserved`), so the waiters that are granted afterwards neither
bring an expired lock back nor take the place of another.

No deadline up to `now` is left, unless the sweep itself records one: a waiter that is
granted gets a deadline counted from the clock, and the clock may be behind `now`.
-/
import LiveMutex.Reserved
import LiveMutex.Sample

namespace LiveMutex

/-! ## What is held under a lock uuid -/

/-- What a key has under a lock uuid, in each of the three ways. -/
structure Holding where
  exclusive : Option ExclusiveHolder
  reader : Option RwHolder
  writer : Option RwHolder
  deriving DecidableEq

namespace Holding

/-- Nothing is held. -/
def nobody : Holding := ⟨none, none, none⟩

/-- There is a hold of this kind. -/
def has (h : Holding) : RwHoldKind → Bool
  | .exclusive => h.exclusive.isSome
  | .read => h.reader.isSome
  | .write => h.writer.isSome

theorem eq_nobody_iff {h : Holding} : h = nobody ↔ ∀ kind, h.has kind = false := by
  constructor
  · rintro rfl kind
    cases kind <;> rfl
  · intro hno
    obtain ⟨e, r, w⟩ := h
    have he := Option.isSome_eq_false_iff.1 (hno .exclusive)
    have hr := Option.isSome_eq_false_iff.1 (hno .read)
    have hw := Option.isSome_eq_false_iff.1 (hno .write)
    rw [Option.isNone_iff_eq_none] at he hr hw
    simp only at he hr hw
    rw [he, hr, hw]
    rfl

end Holding

namespace LockState

variable {l : LockState} {u : String}

def under (l : LockState) (u : String) : Holding :=
  ⟨l.exclusiveHolders[u]?, l.readers[u]?, l.writer.filter fun w => w.lockUuid = u⟩

theorem under_has (kind : RwHoldKind) : (l.under u).has kind = (l.stake kind u).isSome := by
  cases kind <;> simp [under, Holding.has, stake]

/-- `contains_uuid_for_kind` -/
theorem under_contains (kind : RwHoldKind) : l.containsUuidForKind u kind = (l.under u).has kind := by
  cases kind with
  | exclusive => simp [containsUuidForKind, under, Holding.has]
  | read => simp [containsUuidForKind, under, Holding.has]
  | write =>
    cases hw : l.writer with
    | none => simp [containsUuidForKind, under, Holding.has, hw]
    | some w => by_cases hu : w.lockUuid = u <;> simp [containsUuidForKind, under, Holding.has, hw, Option.filter, hu]

theorem under_of_isIdle (h : l.isIdle = true) : l.under u = .nobody :=
  Holding.eq_nobody_iff.2 fun kind => by rw [under_has, (Broker.isIdle_ledger h).2 kind u]; rfl

/-- A grant under another uuid. -/
theorem take_under {terms : Terms} {g : Grant} (ha : l.admits terms.mode = true) (hu : g.lockUuid ≠ u) :
    (l.take terms g).under u = l.under u := by
  unfold take
  dsimp only
  rw [nextOrForcedFencingToken_eq]
  cases hm : terms.mode with
  | exclusive => simp [under, holdExclusive, OrdMap.get_insert_ne _ _ hu]
  | member => simp [under, holdExclusive, OrdMap.get_insert_ne _ _ hu]
  | reader => simp [under, holdReader, OrdMap.get_insert_ne _ _ hu]
  | writer =>
    have hw : l.writer = none := by
      rw [hm] at ha
      simp only [admits, vacant, Bool.and_eq_true, Option.isNone_iff_eq_none] at ha
      exact ha.1.1
    simp [under, holdWriter, hw, Option.filter, hu]

end LockState

namespace LockTable

variable {t t' : LockTable} {k u : String}

def under (t : LockTable) (k u : String) : Holding := t[k]?.elim .nobody (·.under u)

theorem under_of_get {l : LockState} (h : t[k]? = some l) : t.under k u = l.under u := by rw [under, h]; rfl

theorem under_insert {key : String} {l : LockState} :
    under (t.insert key l) k u = if key = k then l.under u else t.under k u := by
  unfold under
  rw [OrdMap.get_insert]
  split <;> rfl

/-- An entry changes, but not in what is held under `u`. -/
theorem under_insert_same {key : String} {l l' : LockState} (h : t[key]? = some l) (hl : l'.under u = l.under u) :
    under (t.insert key l') k u = t.under k u := by
  rw [under_insert]
  split
  · rename_i hk
    rw [← hk, hl, under_of_get h]
  · rfl

/-- Whoever waits under the uuid `u` has `k` already. -/
def Clear (t : LockTable) (k u : String) : Prop :=
  ∀ q x p, t.Waits q x p → p.reserved = some u → ∃ c, p.kind = .composite c ∧ k ∈ c.grantedKeys

/-- The head of a queue takes its key: not one it has. -/
theorem Clear.takeHead (h : t.Clear k u) (hwf : AllLocks LockState.CompositesWf t) {g : Grant} {p : PendingRequest}
    {l : LockState} (hl : t[g.key]? = some l) (hg : g.For p l) (hu : g.lockUuid = u → p.reserved = some u) :
    Clear (t.insert g.key (l.pop.take (p.terms g.key) g)) k u ∧
      under (t.insert g.key (l.pop.take (p.terms g.key) g)) k u = t.under k u := by
  obtain ⟨x, hx⟩ := hg.front
  have hmem : (x, p) ∈ l.queue.entries := List.mem_of_mem_head? hx
  constructor
  · intro q y p' hw hp'
    rw [waits_insert] at hw
    split at hw
    · rename_i hq
      rw [LockState.take_queue] at hw
      exact h q y p' ⟨l, hq ▸ hl, List.mem_of_mem_tail hw⟩ hp'
    · exact h q y p' hw hp'
  · rw [under_insert]
    split
    · rename_i hk
      have hne : g.lockUuid ≠ u := by
        intro he
        obtain ⟨c, hc, hgranted⟩ := h g.key x p ⟨l, hl, hmem⟩ (hu he)
        have hlt := (hwf g.key l hl _ hmem c hc).lt_of_granted hgranted
        rw [hk] at hlt
        exact lt_irrefl k hlt
      rw [LockState.take_under (by rw [LockState.admits_pop]; exact hg.admits) hne, ← hk, under_of_get hl]
      rfl
    · rfl

end LockTable

/-- **Granting waiters leaves what is held alone**: whoever waits under the uuid of a hold has the key already, and
no such uuid is drawn. -/
theorem Step.under {cfg : BrokerConfig} {floor : Nat} {t t' : LockTable} {a : Action} {k u : String}
    (h : Step cfg floor t a t') (ha : a.Cascade) (hwf : AllLocks LockState.CompositesWf t) (hc : t.Clear k u)
    (hdrawn : ∀ g p, a = .grantHead g p → p.grantLockUuid = none → g.lockUuid ≠ u) :
    t'.Clear k u ∧ t'.under k u = t.under k u := by
  cases h with
  | @stamp key l at_ hl hs =>
    refine ⟨fun q x p hw hp => ?_, LockTable.under_insert_same hl rfl⟩
    rw [LockTable.waits_insert] at hw
    split at hw
    · rename_i hq
      exact hc q x p ⟨l, hq ▸ hl, hw⟩ hp
    · exact hc q x p hw hp
  | @grantHead g p l hl hp hg hu =>
    refine hc.takeHead hwf hl hg fun he => ?_
    rw [PendingRequest.reserved_of_single hp]
    cases hgiven : p.grantLockUuid with
    | none => exact absurd he (hdrawn g p rfl hgiven)
    | some w => rw [← he, hu w hgiven]
  | @finish g p c l hl hp hr hg hu =>
    exact hc.takeHead hwf hl hg fun he => by rw [← he, hu]; simp [PendingRequest.reserved, hp]
  | @advance g p c next rest l l' hl hp hr hg hu h' =>
    have hres : p.reserved = some c.compositeLockUuid := PendingRequest.reserved_of_composite hp
    obtain ⟨hclear, hsame⟩ := hc.takeHead hwf hl hg fun he => by rw [← he, hu, hres]
    obtain ⟨x, hx⟩ := hg.front
    constructor
    · intro q y p' hw hp'
      rw [LockTable.waits_insert] at hw
      split at hw
      · rename_i hq
        rcases LinkedQueue.mem_pushBack hw with hw | hw
        · rcases h' with h' | ⟨_, hfresh⟩
          · exact hclear q y p' ⟨l', hq ▸ h', hw⟩ hp'
          · rw [hfresh.queue] at hw
            cases hw
        · -- the composite itself, with one key more
          obtain ⟨_, rfl⟩ := Prod.mk.inj hw
          obtain ⟨c', hc', hgranted⟩ := hc g.key x p ⟨l, hl, List.mem_of_mem_head? hx⟩ (hres.trans hp')
          rw [hp] at hc'
          obtain rfl := PendingKind.composite.inj hc'
          exact ⟨_, rfl, List.mem_append_left _ hgranted⟩
      · exact hclear q y p' hw hp'
    · rw [LockTable.under_insert]
      split
      · rename_i hk
        rw [← hsame, ← hk]
        rcases h' with h' | ⟨hnone, hfresh⟩
        · rw [LockTable.under_of_get h']
          rfl
        · rw [LockTable.under, hnone]
          show Holding.mk _ _ _ = _
          simp [LockState.push, hfresh.exclusiveHolders, hfresh.readers, hfresh.writer, Holding.nobody]
      · exact hsame
  | _ => exact ha.elim

namespace Broker

variable {env : Env} {b b' : Broker} {k u : String}

theorem Does.under (h : b.Does env none Action.Cascade b') (hs : b.Sane) (hc : b.locks.Clear k u)
    (hu : ∀ n, b.reads ≤ n → env.newV4 n ≠ u) : b'.locks.under k u = b.locks.under k u := by
  obtain ⟨as, hrun⟩ := h.run
  have hall : AllLocks LockState.CompositesWf b'.locks ∧ b'.locks.Clear k u ∧
      b'.locks.under k u = b.locks.under k u := by
    refine hrun.trace.inv (I := fun t => AllLocks LockState.CompositesWf t ∧ t.Clear k u ∧
      t.under k u = b.locks.under k u) (fun t a t' ha hstep hi => ?_) ⟨hs.composites, hc, rfl⟩
    obtain ⟨hwf, hclear, hsame⟩ := hi
    obtain ⟨hclear', hsame'⟩ := hstep.under (hrun.ok a ha) hwf hclear fun g p hap hgiven => by
      have hdrawn := hrun.drawn a ha
      rw [hap] at hdrawn
      obtain ⟨n, hlo, _, he⟩ := hdrawn hgiven
      exact he ▸ hu n hlo
    exact ⟨(LockState.CompositesWf.kept b.config).step hstep a.queues_true hwf, hclear', hsame'.trans hsame⟩
  exact hall.2.2

theorem prune_under (now : Instant) : (b.prune env now).locks.under k u = b.locks.under k u := by
  cases hl : b.locks[k]? with
  | none =>
    cases hp : (b.prune env now).locks[k]? with
    | none => rw [LockTable.under, LockTable.under, hl, hp]
    | some l => cases hl.symm.trans (get_of_prune hp)
  | some l =>
    have hor : (b.prune env now).locks[k]? = some l ∨ (b.prune env now).locks[k]? = none ∧ l.isIdle = true :=
      prune_get hl
    rcases hor with hk | ⟨hk, hidle⟩
    · rw [LockTable.under, LockTable.under, hl, hk]
    · rw [LockTable.under_of_get hl, LockTable.under, hk]
      exact (LockState.under_of_isIdle hidle).symm

/-! ## The deadline loop -/

/-- The lock uuid has a recorded deadline up to `now`. -/
def DueBy (b : Broker) (now : Instant) (u : String) : Prop :=
  ∃ (dk : DeadlineKey) (e : DeadlineEntry), b.deadlines[dk]? = some e ∧ e.lockUuid = u ∧ dk.1 ≤ now

/-- Some key is held under the lock uuid. -/
def HoldsUnder (b : Broker) (u : String) : Prop := ∃ k, b.locks.under k u ≠ .nobody

/-- One of these deadlines is the lock's. -/
def Struck (b : Broker) (dks : List DeadlineKey) (u : String) : Prop :=
  ∃ dk ∈ dks, ∃ e : DeadlineEntry, b.deadlines[dk]? = some e ∧ e.lockUuid = u

theorem under_has_ledger (kind : RwHoldKind) : (b.locks.under k u).has kind = (b.ledger.stake k kind u).isSome := by
  unfold LockTable.under
  show _ = (b.locks[k]?.bind fun l => l.stake kind u).isSome
  cases b.locks[k]? with
  | none => cases kind <;> rfl
  | some l => exact LockState.under_has kind

theorem stake_of_under (h : b.locks.under k u ≠ .nobody) : ∃ kind s, b.ledger.stake k kind u = some s := by
  rw [Ne, Holding.eq_nobody_iff, not_forall] at h
  obtain ⟨kind, hkind⟩ := h
  rw [Bool.not_eq_false, under_has_ledger] at hkind
  obtain ⟨s, hs⟩ := Option.isSome_iff_exists.1 hkind
  exact ⟨kind, s, hs⟩

/-- What is held under the uuid of a deadline is held on its keys, as it says. -/
theorem under_has_fits (hb : b.ledger.Consistent env) {dk : DeadlineKey} {e : DeadlineEntry}
    (he : b.deadlines[dk]? = some e) {kind : RwHoldKind} (h : (b.locks.under k e.lockUuid).has kind = true) :
    k ∈ e.keys ∧ kind = e.kind := by
  rw [under_has_ledger] at h
  obtain ⟨s, hs⟩ := Option.isSome_iff_exists.1 h
  obtain ⟨hk, hkind, _⟩ := hb.fits (.deadline he rfl) hs
  exact ⟨hk, hkind⟩

theorem deadlineEntryIsStillHeld_iff {e : DeadlineEntry} :
    b.deadlineEntryIsStillHeld e = true ↔ ∃ k ∈ e.keys, (b.locks.under k e.lockUuid).has e.kind = true := by
  unfold deadlineEntryIsStillHeld
  rw [List.any_eq_true]
  refine exists_congr fun k => and_congr_right fun _ => ?_
  unfold LockTable.under
  cases b.locks[k]? with
  | none => cases e.kind <;> simp [Holding.has, Holding.nobody]
  | some l => simp [LockState.under_contains]

end Broker

namespace LockState

variable {l : LockState} {u w : String}

theorem strip_under (s : Strip) : (l.strip s).under u =
    ⟨l.exclusiveHolders[u]?.filter fun h => !s.exclusive u h, l.readers[u]?.filter fun h => !s.reader u h,
      (l.writer.filter fun w => !s.writer w).filter fun w => w.lockUuid = u⟩ := by
  rw [under, strip_exclusiveHolders, strip_readers]
  rfl

theorem strip_holder_under (kind : RwHoldKind) (h : u ≠ w) : (l.strip (.holder w kind)).under u = l.under u := by
  rw [strip_under]
  cases kind with
  | exclusive => simp [under, Strip.holder, h]
  | read => simp [under, Strip.holder, h]
  | write =>
    cases hw : l.writer with
    | none => simp [under, Strip.holder, hw]
    | some x =>
      by_cases hx : x.lockUuid = w
      · have hne : x.lockUuid ≠ u := fun he => h (he.symm.trans hx)
        simp [under, Strip.holder, hw, Option.filter_some, hx, hx ▸ hne]
      · simp [under, Strip.holder, hw, Option.filter_some, hx]

theorem strip_holder_has {kind kind' : RwHoldKind} (h : ((l.strip (.holder u kind)).under u).has kind' = true) :
    (l.under u).has kind' = true ∧ kind' ≠ kind := by
  rw [strip_under] at h
  cases kind <;> cases kind' <;> simp_all [under, Strip.holder, Holding.has]

end LockState

namespace Broker

variable {env : Env} {b : Broker} {k u : String}

/-- An eviction does not touch other locks. -/
theorem evict_under (d : Dropping) {e : DeadlineEntry} (h : u ≠ e.lockUuid) :
    (d.evict e).broker.locks.under k u = d.broker.locks.under k u := by
  rw [evict_locks, LockTable.under, LockTable.under, LockTable.get_strip]
  cases d.broker.locks[k]? with
  | none => rfl
  | some l =>
    show (l.strip _).under u = l.under u
    split
    · exact LockState.strip_holder_under e.kind h
    · rw [LockState.strip_nothing]

/-- It takes the whole lock, when it has all its keys. -/
theorem evict_under_self (d : Dropping) {e : DeadlineEntry}
    (hfits : ∀ k kind, (d.broker.locks.under k e.lockUuid).has kind = true → k ∈ e.keys ∧ kind = e.kind) :
    (d.evict e).broker.locks.under k e.lockUuid = .nobody := by
  rw [Holding.eq_nobody_iff]
  intro kind
  rw [Bool.eq_false_iff]
  intro hhas
  rw [evict_locks, LockTable.under, LockTable.get_strip] at hhas
  cases hl : d.broker.locks[k]? with
  | none =>
    rw [hl] at hhas
    cases kind <;> cases hhas
  | some l =>
    rw [hl] at hhas
    change ((l.strip _).under e.lockUuid).has kind = true at hhas
    split at hhas
    · obtain ⟨hhas, hne⟩ := LockState.strip_holder_has hhas
      exact hne (hfits k kind (by rw [LockTable.under_of_get hl]; exact hhas)).2
    · rename_i hk
      rw [LockState.strip_nothing] at hhas
      exact hk (hfits k kind (by rw [LockTable.under_of_get hl]; exact hhas)).1

/-- What the loop has done once it went through these deadlines. -/
structure Swept (b : Broker) (dks : List DeadlineKey) (s : Sweeping) : Prop where
  deadlines : ∀ dk, s.broker.deadlines[dk]? = if dk ∈ dks then none else b.deadlines[dk]?
  taken : ∀ k u, b.Struck dks u → s.broker.locks.under k u = .nobody
  kept : ∀ k u, ¬b.Struck dks u → s.broker.locks.under k u = b.locks.under k u
  count : ∃ us : Finset String, (∀ u, u ∈ us ↔ b.Struck dks u ∧ b.HoldsUnder u) ∧ s.evictedCount = us.card

theorem struck_append {dks : List DeadlineKey} {dk : DeadlineKey} :
    b.Struck (dks ++ [dk]) u ↔ b.Struck dks u ∨ ∃ e : DeadlineEntry, b.deadlines[dk]? = some e ∧ e.lockUuid = u := by
  unfold Struck
  simp only [List.mem_append, List.mem_singleton, or_and_right, exists_or, exists_eq_left]

theorem struck_append_some {dks : List DeadlineKey} {dk : DeadlineKey} {e : DeadlineEntry}
    (he : b.deadlines[dk]? = some e) : b.Struck (dks ++ [dk]) u ↔ b.Struck dks u ∨ e.lockUuid = u := by
  rw [struck_append, he]
  simp

namespace Swept

variable {dks : List DeadlineKey} {s s' : Sweeping} {dk : DeadlineKey} {e : DeadlineEntry}

theorem erase (h : b.Swept dks s) (hd : s'.broker.deadlines = s.broker.deadlines.erase dk) (a : DeadlineKey) :
    s'.broker.deadlines[a]? = if a ∈ dks ++ [dk] then none else b.deadlines[a]? := by
  rw [hd, OrdMap.get_erase, h.deadlines]
  by_cases ha : dk = a
  · simp [ha]
  · simp [ha, Ne.symm ha]

/-- There is no such deadline. -/
theorem unknown (h : b.Swept dks s) (he : b.deadlines[dk]? = none) : b.Swept (dks ++ [dk]) s := by
  have hsame : ∀ u, b.Struck (dks ++ [dk]) u ↔ b.Struck dks u := fun u => by rw [struck_append, he]; simp
  refine ⟨fun a => ?_, fun k u hu => h.taken k u ((hsame u).1 hu),
    fun k u hu => h.kept k u fun h' => hu ((hsame u).2 h'), ?_⟩
  · rw [h.deadlines]
    by_cases ha : a = dk
    · subst ha
      simp [he]
    · simp [ha]
  · obtain ⟨us, hus, hcount⟩ := h.count
    exact ⟨us, fun u => by rw [hus, hsame], hcount⟩

/-- The lock is still held just when none of its deadlines came before and it was held at all. -/
theorem stillHeld_iff (h : b.Swept dks s) (hb : b.ledger.Consistent env) (he : b.deadlines[dk]? = some e)
    (ds : OrdMap DeadlineKey DeadlineEntry) :
    Broker.deadlineEntryIsStillHeld { s.broker with deadlines := ds } e = true ↔
      ¬b.Struck dks e.lockUuid ∧ b.HoldsUnder e.lockUuid := by
  have hnobody : Holding.has .nobody e.kind = false := by cases e.kind <;> rfl
  rw [deadlineEntryIsStillHeld_iff]
  constructor
  · intro ⟨k, _, hhas⟩
    have hns : ¬b.Struck dks e.lockUuid := fun hst => by
      rw [h.taken k _ hst, hnobody] at hhas
      cases hhas
    refine ⟨hns, k, fun hno => ?_⟩
    rw [h.kept k _ hns, hno, hnobody] at hhas
    cases hhas
  · intro ⟨hns, k, hsome⟩
    rw [Ne, Holding.eq_nobody_iff, not_forall] at hsome
    obtain ⟨kind, hkind⟩ := hsome
    rw [Bool.not_eq_false] at hkind
    obtain ⟨hk, rfl⟩ := under_has_fits hb he hkind
    exact ⟨k, hk, by rw [h.kept k _ hns]; exact hkind⟩

/-- The lock is taken. -/
theorem evict (h : b.Swept dks s) (he : b.deadlines[dk]? = some e) (hns : ¬b.Struck dks e.lockUuid)
    (hholds : b.HoldsUnder e.lockUuid) (hd : s'.broker.deadlines = s.broker.deadlines.erase dk)
    (hself : ∀ k, s'.broker.locks.under k e.lockUuid = .nobody)
    (hother : ∀ k u, u ≠ e.lockUuid → s'.broker.locks.under k u = s.broker.locks.under k u)
    (hc : s'.evictedCount = s.evictedCount + 1) : b.Swept (dks ++ [dk]) s' := by
  obtain ⟨us, hus, hcount⟩ := h.count
  refine ⟨h.erase hd, fun k u hu => ?_, fun k u hu => ?_, insert e.lockUuid us, fun u => ?_, ?_⟩
  · by_cases hue : u = e.lockUuid
    · rw [hue]
      exact hself k
    · rw [hother k u hue]
      exact h.taken k u (((struck_append_some he).1 hu).resolve_right (Ne.symm hue))
  · rw [struck_append_some he, not_or] at hu
    rw [hother k u (Ne.symm hu.2)]
    exact h.kept k u hu.1
  · rw [Finset.mem_insert, hus, struck_append_some he]
    constructor
    · rintro (rfl | ⟨hst, hu⟩)
      · exact ⟨.inr rfl, hholds⟩
      · exact ⟨.inl hst, hu⟩
    · rintro ⟨hst | rfl, hu⟩
      · exact .inr ⟨hst, hu⟩
      · exact .inl rfl
  · rw [Finset.card_insert_of_notMem fun hmem => hns ((hus _).1 hmem).1, hc, hcount]

/-- The lock is not there any more. -/
theorem stale (h : b.Swept dks s) (he : b.deadlines[dk]? = some e)
    (hgone : b.HoldsUnder e.lockUuid → b.Struck dks e.lockUuid)
    (hd : s'.broker.deadlines = s.broker.deadlines.erase dk) (hl : s'.broker.locks = s.broker.locks)
    (hc : s'.evictedCount = s.evictedCount) : b.Swept (dks ++ [dk]) s' := by
  obtain ⟨us, hus, hcount⟩ := h.count
  refine ⟨h.erase hd, fun k u hu => ?_, fun k u hu => ?_, us, fun u => ?_, hc.trans hcount⟩
  · rw [hl]
    by_cases hst : b.Struck dks u
    · exact h.taken k u hst
    · obtain rfl := ((struck_append_some he).1 hu).resolve_left hst
      rw [h.kept k _ hst]
      by_contra hno
      exact hst (hgone ⟨k, hno⟩)
  · rw [struck_append_some he, not_or] at hu
    rw [hl]
    exact h.kept k u hu.1
  · rw [hus, struck_append_some he]
    constructor
    · exact fun hu => ⟨.inl hu.1, hu.2⟩
    · rintro ⟨hst | rfl, hu⟩
      · exact ⟨hst, hu⟩
      · exact ⟨hgone hu, hu⟩

/-- One more deadline. -/
theorem expire (h : b.Swept dks s) (hb : b.ledger.Consistent env) (hdk : dk ∉ dks) :
    b.Swept (dks ++ [dk]) (s.expire dk) := by
  have hget : s.broker.deadlines[dk]? = b.deadlines[dk]? := by rw [h.deadlines, if_neg hdk]
  unfold Sweeping.expire
  rw [hget]
  cases he : b.deadlines[dk]? with
  | none => exact h.unknown he
  | some e =>
    have hheld := h.stillHeld_iff hb he (s.broker.deadlines.erase dk)
    dsimp only
    split
    · rename_i hstill
      obtain ⟨hns, hholds⟩ := hheld.1 hstill
      have hfits : ∀ k kind, (s.broker.locks.under k e.lockUuid).has kind = true → k ∈ e.keys ∧ kind = e.kind := by
        intro k kind hhas
        rw [h.kept k _ hns] at hhas
        exact under_has_fits hb he hhas
      have htable := evict_tableOnly ⟨{ s.broker with deadlines := s.broker.deadlines.erase dk }, s.touchedKeys⟩ e
      refine h.evict he hns hholds ?_ (fun k => ?_) (fun k u hu => ?_) rfl
      · simp only [untrackHolder, modifyClient_deadlines]
        rw [htable]
      · simp only [untrackHolder, modifyClient_locks]
        exact evict_under_self ⟨{ s.broker with deadlines := s.broker.deadlines.erase dk }, s.touchedKeys⟩ hfits
      · simp only [untrackHolder, modifyClient_locks]
        exact evict_under ⟨{ s.broker with deadlines := s.broker.deadlines.erase dk }, s.touchedKeys⟩ hu
    · rename_i hstill
      refine h.stale he (fun hholds => ?_) rfl rfl rfl
      by_contra hns
      exact hstill (hheld.2 ⟨hns, hholds⟩)

end Swept

/-- The whole loop. -/
theorem Swept.foldl (hb : b.ledger.Consistent env) (dks : List DeadlineKey) (hnd : dks.Nodup) :
    b.Swept dks (dks.foldl Sweeping.expire ⟨⟨b, []⟩, 0⟩) := by
  induction dks using List.reverseRecOn with
  | nil =>
    have hno : ∀ u, ¬b.Struck [] u := by rintro u ⟨_, hmem, _⟩; cases hmem
    exact ⟨fun _ => by simp, fun _ u hu => absurd hu (hno u), fun _ _ _ => rfl, ∅, fun u => by simp [hno u], rfl⟩
  | append_singleton dks dk ih =>
    obtain ⟨hnd, _, hdis⟩ := List.nodup_append.1 hnd
    rw [List.foldl_append]
    exact (ih hnd).expire hb fun hmem => hdis dk hmem dk (List.mem_singleton_self dk) rfl

/-! ## Deadlines and answers -/

end Broker

namespace Ledger

variable {v v' : Ledger} {env : Env} {u : String}

/-- Answers are only added, and a deadline comes with one. -/
structure Answers (v v' : Ledger) : Prop where
  told : v.told <:+ v'.told
  due : v'.told = v.told → ∀ dk e, v'.due dk = some e → v.due dk = some e

theorem Answers.of_same (ht : v'.told = v.told) (hd : ∀ dk e, v'.due dk = some e → v.due dk = some e) :
    v.Answers v' := ⟨ht ▸ List.suffix_rfl, fun _ => hd⟩

theorem Answers.of_tell {x : String} (ht : v'.told = x :: v.told) : v.Answers v' := by
  refine ⟨ht ▸ List.suffix_cons x v.told, fun he => ?_⟩
  have hlen := congrArg List.length (ht.symm.trans he)
  simp at hlen

theorem Answers.trans {v'' : Ledger} (h₁ : v.Answers v') (h₂ : v'.Answers v'') : v.Answers v'' where
  told := h₁.told.trans h₂.told
  due he dk e hd := by
    -- as long at the end as at the start, so in between
    have hlen₁ := h₁.told.length_le
    have hlen₂ := h₂.told.length_le
    rw [he] at hlen₂
    have he₁ : v'.told = v.told := (h₁.told.eq_of_length (le_antisymm hlen₁ hlen₂)).symm
    exact h₁.due he₁ dk e (h₂.due (he.trans he₁.symm) dk e hd)

theorem Grants.answers (h : v.Grants env v') : v.Answers v' := by
  cases h with
  | idle _ h => exact h ▸ .of_same rfl fun _ _ hd => hd
  | serve _ _ _ _ _ ha _ h => exact h ▸ .of_tell (told_tell _ _ ha.awarded)
  | advance _ _ _ _ _ _ h => exact h ▸ .of_same rfl fun _ _ hd => hd

theorem Cascade.answers (h : v.Cascade env v') : v.Answers v' := by
  induction h with
  | refl => exact .of_same rfl fun _ _ hd => hd
  | tail _ hg ih => exact ih.trans hg.answers

theorem Enters.answers {op : Op} (h : v.Enters env op v') : v.Answers v' := by
  cases h with
  | still _ => exact .of_same rfl fun _ _ hd => hd
  | award _ _ _ _ _ _ ha => exact .of_tell (told_tell _ _ ha.awarded)
  | enqueue => exact .of_same rfl fun _ _ hd => hd

/-- While waiters are granted only deadlines come that lie after a reading of the clock on the way. -/
theorem Cascade.dates (h : v.Cascade env v') : v.reads ≤ v'.reads ∧ ∀ {dk e}, v'.due dk = some e →
    v.due dk = some e ∨ dk.2 ≤ u64Max ∧ ∃ n, v.reads ≤ n ∧ n < v'.reads ∧ env.now n < dk.1 := by
  induction h with
  | refl => exact ⟨le_rfl, .inl⟩
  | @tail v₁ v₂ _ hg ih =>
    obtain ⟨hreads, hdue⟩ := ih
    have hlong : ∀ {m dk e}, v₁.reads ≤ m → v₁.due dk = some e → v.due dk = some e ∨ dk.2 ≤ u64Max ∧
        ∃ n, v.reads ≤ n ∧ n < m ∧ env.now n < dk.1 :=
      fun hm hd => (hdue hd).imp_right fun ⟨hseq, n, hlo, hhi, hnow⟩ => ⟨hseq, n, hlo, hhi.trans_le hm, hnow⟩
    cases hg with
    | idle hn h => exact h ▸ ⟨hreads.trans hn, hlong hn⟩
    | @serve token key w p rest n a d hq hlast hgives hn ha hd h =>
      subst h
      refine ⟨hreads.trans hn, fun {dk e} hs => ?_⟩
      rcases due_of_schedule hs with hs | hs
      · exact hlong hn hs
      · obtain ⟨⟨_, _, hseq, i, hlo, hhi, hnow⟩, _⟩ := hd (dk, e) hs
        exact .inr ⟨hseq, i, hreads.trans hlo, hhi, hnow⟩
    | advance token n hq hp hmore hn h => exact h ▸ ⟨hreads.trans hn, hlong hn⟩

theorem Enters.seq {op : Op} (h : v.Enters env op v') {dk : DeadlineKey} {e : DeadlineEntry} (he : v'.due dk = some e) :
    v.due dk = some e ∨ dk.2 ≤ u64Max := by
  cases h with
  | still _ => exact .inl he
  | award _ _ _ _ _ _ _ hd => exact (due_of_schedule he).imp_right fun hs => (hd _ hs).seq
  | enqueue => exact .inl he

/-- A lock nobody waits for gets no deadline while waiters are granted. -/
theorem Cascade.undated (h : v.Cascade env v') (hw : ∀ k x p, v.Waits k x p → p.reserved ≠ some u)
    (hu : ∀ n, v.reads ≤ n → env.newV4 n ≠ u) {dk : DeadlineKey} {e : DeadlineEntry} (he : v'.due dk = some e)
    (heu : e.lockUuid = u) : v.due dk = some e := by
  suffices hall : (∀ k x p, v'.Waits k x p → p.reserved ≠ some u) ∧ v.reads ≤ v'.reads ∧
      (v'.due dk = some e → v.due dk = some e) from hall.2.2 he
  clear he
  induction h with
  | refl => exact ⟨hw, le_rfl, id⟩
  | @tail v₁ v₂ _ hg ih =>
    obtain ⟨hwaits, hreads, hdue⟩ := ih
    cases hg with
    | idle hn h => exact h ▸ ⟨hwaits, hreads.trans hn, hdue⟩
    | @serve token key w p rest n a d hq hlast hgives hn ha hd h =>
      subst h
      refine ⟨fun k x q hq' => hwaits k x q ((pop_sublist v₁ key _).subset hq'), hreads.trans hn, fun hs => ?_⟩
      rcases due_of_schedule hs with hs | hs
      · exact hdue hs
      · have hentry := (hd (dk, e) hs).1.entry
        dsimp only at hentry
        obtain rfl : w = u := by rw [← heu, hentry]
        rcases hgives with hres | ⟨_, i, hlo, _, rfl⟩
        · exact absurd hres (hwaits key _ p (waits_head hq))
        · exact absurd rfl (hu i (hreads.trans hlo))
    | @advance token n key next p rest c more hq hp hmore hn h =>
      subst h
      refine ⟨fun k x q hq' => ?_, hreads.trans hn, hdue⟩
      rcases waits_of_push hq' with hq' | ⟨_, _, rfl⟩
      · exact hwaits k x q ((pop_sublist v₁ key _).subset hq')
      · have hres : p.reserved = some c.compositeLockUuid := PendingRequest.reserved_of_composite hp
        exact fun he => hwaits key _ p (waits_head hq) (hres.trans he)

end Ledger

namespace Broker

variable {env : Env} {b : Broker}

theorem apply_answers (hs : b.Sane) (op : Op) : b.ledger.Answers (b.apply env op).ledger := by
  obtain ⟨v₁, v₂, ho, he, hc⟩ := apply_turns env hs op
  exact ((Ledger.Answers.of_same (Ledger.told_of_past ho.rest.2) ho.rest.1).trans he.answers).trans hc.answers

theorem applyAll_answers {cfg : BrokerConfig} (h : Reachable cfg b) (ops : List Op) :
    b.ledger.Answers (b.applyAll env ops).ledger := by
  induction ops generalizing b with
  | nil => exact .of_same rfl fun _ _ hd => hd
  | cons op ops ih => exact (apply_answers (.reachable h) op).trans (ih (.apply env op h))

/-- The sequence number of every deadline is a `u64`. -/
def Numbered (b : Broker) : Prop := ∀ (dk : DeadlineKey) e, b.deadlines[dk]? = some e → dk.2 ≤ u64Max

theorem Numbered.apply (h : b.Numbered) (hs : b.Sane) (op : Op) : (b.apply env op).Numbered := by
  intro dk e he
  obtain ⟨v₁, v₂, ho, henter, hc⟩ := apply_turns env hs op
  rcases hc.dates.2 he with he | ⟨hseq, _⟩
  · rcases henter.seq he with he | hseq
    · exact h dk e (ho.rest.1 dk e he)
    · exact hseq
  · exact hseq

theorem Numbered.installs {now : Instant} : ∀ {ds : List BrokerRaftDeadlineSnapshot} {next next' : Broker},
    next.Numbered → ds.foldlM (installDeadline env now) next = .ok next' → next'.Numbered
  | [], next, next', hn, h => by
    cases h
    exact hn
  | d :: ds, next, next', hn, h => by
    rw [List.foldlM_cons] at h
    cases hd : installDeadline env now next d with
    | error e => rw [hd] at h; cases h
    | ok mid =>
      rw [hd] at h
      refine Numbered.installs (fun dk e he => ?_) h
      unfold installDeadline at hd
      split at hd
      · cases hd
      · cases hd
        dsimp only at he
        rw [OrdMap.get_insert] at he
        split at he
        · rename_i hdk
          rw [← hdk]
          exact Nat.le_of_lt_succ (Nat.mod_lt _ (by decide))
        · exact hn dk e he

theorem Reachable.numbered {cfg : BrokerConfig} (h : Reachable cfg b) : b.Numbered := by
  induction h with
  | new => intro dk e he; simp [Broker.new, BrokerState.new] at he
  | apply env op h ih => exact ih.apply (.reachable h) op
  | @install b other b' env now _ _ hi _ _ =>
    have hinstall := (installRaftSnapshot_ok hi).2
    rw [installBrokerRaftSnapshot_eq] at hinstall
    refine Numbered.installs (fun dk e he => ?_) hinstall
    rw [(installLocks_rest _ _ _).2.1] at he
    simp [installBase, BrokerState.new] at he

/-- Nothing is due, nothing is evicted. -/
theorem tickTtl_nothing (env : Env) {now : Instant}
    (h : ∀ (dk : DeadlineKey) e, b.deadlines[dk]? = some e → ¬dk.1 ≤ now) : (b.tickTtl env now).2 = 0 := by
  have hempty : b.expiredKeys now = [] := by
    unfold expiredKeys
    rw [List.filter_eq_nil_iff]
    intro dk hdk
    obtain ⟨e, he⟩ := OrdMap.mem_iff_get.1 (Std.ExtTreeMap.mem_keys.1 hdk)
    have hlt := h dk e he
    simp only [Bool.or_eq_true, Bool.and_eq_true, decide_eq_true_eq, not_or, not_and]
    exact ⟨fun hd => hlt (le_of_lt hd), fun hd => absurd (le_of_eq hd) hlt⟩
  unfold tickTtl sweep
  rw [hempty]
  rfl

theorem mem_expiredKeys (hb : b.Numbered) {now : Instant} {dk : DeadlineKey} :
    dk ∈ b.expiredKeys now ↔ (∃ e, b.deadlines[dk]? = some e) ∧ dk.1 ≤ now := by
  unfold expiredKeys
  rw [List.mem_filter, Std.ExtTreeMap.mem_keys, OrdMap.mem_iff_get]
  refine and_congr_right fun ⟨e, he⟩ => ?_
  have hseq := hb dk e he
  simp only [Bool.or_eq_true, Bool.and_eq_true, decide_eq_true_eq]
  exact ⟨fun hd => hd.elim le_of_lt fun hd => le_of_eq hd.1,
    fun hd => (lt_or_eq_of_le hd).imp_right fun hd => ⟨hd, hseq⟩⟩

/-- The sweep is through with every deadline up to `now`. -/
theorem sweep_swept (hb : b.ledger.Consistent env) (now : Instant) : b.Swept (b.expiredKeys now) (b.sweep now) := by
  refine Swept.foldl hb _ (List.Nodup.filter _ ?_)
  exact Std.ExtTreeMap.nodup_keys

theorem struck_expiredKeys (hb : b.Numbered) {now : Instant} {u : String} :
    b.Struck (b.expiredKeys now) u ↔ b.DueBy now u := by
  constructor
  · intro ⟨dk, hmem, e, he, hu⟩
    exact ⟨dk, e, he, hu, ((mem_expiredKeys hb).1 hmem).2⟩
  · intro ⟨dk, e, he, hu, hnow⟩
    exact ⟨dk, (mem_expiredKeys hb).2 ⟨⟨e, he⟩, hnow⟩, e, he, hu⟩

/-! ## The sweep -/

/-- A reading of the clock in the sweep is before `now`. -/
def ClockBehind (env : Env) (b : Broker) (now : Instant) : Prop :=
  ∃ n, b.reads ≤ n ∧ n < (b.tickTtl env now).1.reads ∧ env.now n < now

/-- The sweep takes every key of each lock that is due, leaves every other hold as it is, and returns how many locks
it took. -/
structure SweepsHolders (env : Env) (b : Broker) (now : Instant) : Prop where
  takes : ∀ k u, b.DueBy now u → (b.tickTtl env now).1.locks.under k u = .nobody
  leaves : ∀ k u, ¬b.DueBy now u → b.locks.under k u ≠ .nobody →
    (b.tickTtl env now).1.locks.under k u = b.locks.under k u
  counts : ∃ us : Finset String, (∀ u, u ∈ us ↔ b.DueBy now u ∧ b.HoldsUnder u) ∧ (b.tickTtl env now).2 = us.card

/-- No deadline up to `now` is left to a lock that was held before, and a second sweep with no request answered in
between takes nothing. -/
structure SweepsDeadlines (env : Env) (b : Broker) (now : Instant) : Prop where
  strikes : ∀ (dk : DeadlineKey) e, (b.tickTtl env now).1.deadlines[dk]? = some e → dk.1 ≤ now →
    ¬b.HoldsUnder e.lockUuid
  again : ∀ ops, ((b.tickTtl env now).1.applyAll env ops).ledger.told = (b.tickTtl env now).1.ledger.told →
    (((b.tickTtl env now).1.applyAll env ops).tickTtl env now).2 = 0

/-- The same, but for deadlines the sweep itself records: those of locks that had none before, and only when the clock
is behind `now`. -/
structure SweepsOldDeadlines (env : Env) (b : Broker) (now : Instant) : Prop where
  strikes : ∀ (dk : DeadlineKey) e, (b.tickTtl env now).1.deadlines[dk]? = some e → dk.1 ≤ now →
    (∀ (dk' : DeadlineKey) e', b.deadlines[dk']? = some e' → e'.lockUuid ≠ e.lockUuid) ∧ b.ClockBehind env now
  again : ∀ ops, ((b.tickTtl env now).1.applyAll env ops).ledger.told = b.ledger.told ∨ ¬b.ClockBehind env now ∧
      ((b.tickTtl env now).1.applyAll env ops).ledger.told = (b.tickTtl env now).1.ledger.told →
    (((b.tickTtl env now).1.applyAll env ops).tickTtl env now).2 = 0

/-- After the deadline loop, waiters are granted. -/
theorem sweep_wakes (env : Env) (b : Broker) (now : Instant) : (b.sweep now).broker.Does env none Action.Cascade
    (wakeTouched env (b.sweep now).toDropping fun b key => b.tryGrantNext env key) :=
  wakeTouched_does _ fun b key => tryGrantNext_does env b key

section

variable {cfg : BrokerConfig} {now : Instant}

/-- Granting waiters after the sweep leaves alone what is due, and what is held and not due. -/
theorem RunsIn.tickTtl_under (h : RunsIn cfg (fun env b op => op.PrescribesUnused env b) Apart env b) {k u : String}
    (hu : b.DueBy now u ∨ b.locks.under k u ≠ .nobody) :
    (b.tickTtl env now).1.locks.under k u = (b.sweep now).broker.locks.under k u := by
  have hopens : b.Opens (.tickTtl now) (b.sweep now).broker.ledger := sweep_expires b now
  have hdoes : b.Does env none (Action.Releases fun _ _ => False) (b.sweep now).broker := sweep_does now
  have hsane : (b.sweep now).broker.Sane := Sane.does (.reachable h.reachable) hdoes
  have huses : b.ledger.Uses u := by
    rcases hu with ⟨dk, e, he, hu, _⟩ | hsome
    · exact .inl ⟨_, _, .deadline he hu⟩
    · exact .inr ⟨k, stake_of_under hsome⟩
  have hclear : (b.sweep now).broker.locks.Clear k u := by
    intro q x p hw hp
    have hw₀ : b.ledger.Waits q x p := (hopens.queue_sublist q).subset (ledger_waits.2 hw)
    rcases hu with ⟨dk, e, he, hu, _⟩ | hsome
    · exact absurd (hu ▸ hp) ((h.ordered Op.PrescribesUnused.new Apart.fits).reserves.due hw₀ he)
    · obtain ⟨kind, s, hs⟩ := stake_of_under hsome
      exact h.onlyGranted _ _ _ _ _ _ _ hw₀ hp hs
  have hdraw : ∀ n, (b.sweep now).broker.reads ≤ n → env.newV4 n ≠ u := fun n hn he =>
    h.consistent.unused (hdoes.reads.trans hn) (he ▸ huses)
  unfold tickTtl
  rw [prune_under]
  exact (sweep_wakes env b now).under hsane hclear hdraw

/-- After the deadline loop no deadline up to `now` is left. -/
theorem sweep_strikes (hb : b.Numbered) (hc : b.ledger.Consistent env) {dk : DeadlineKey} {e : DeadlineEntry}
    (he : (b.sweep now).broker.deadlines[dk]? = some e) : ¬dk.1 ≤ now := by
  intro hnow
  rw [(sweep_swept hc now).deadlines] at he
  split at he
  · cases he
  · rename_i hdk
    exact hdk ((mem_expiredKeys hb).2 ⟨⟨e, he⟩, hnow⟩)

theorem RunsIn.tickTtl_strikes (h : RunsIn cfg (fun env b op => op.PrescribesUnused env b) Apart env b)
    {dk : DeadlineKey} {e : DeadlineEntry} (he : (b.tickTtl env now).1.deadlines[dk]? = some e) (hnow : dk.1 ≤ now) :
    (∀ (dk' : DeadlineKey) e', b.deadlines[dk']? = some e' → e'.lockUuid ≠ e.lockUuid) ∧ b.ClockBehind env now := by
  have hopens : b.Opens (.tickTtl now) (b.sweep now).broker.ledger := sweep_expires b now
  have hdoes : b.Does env none (Action.Releases fun _ _ => False) (b.sweep now).broker := sweep_does now
  have hstruck : (b.sweep now).broker.deadlines[dk]? ≠ some e := fun he' =>
    sweep_strikes h.reachable.numbered h.consistent he' hnow
  have hcascade : (b.sweep now).broker.ledger.Cascade env (b.tickTtl env now).1.ledger :=
    tickTtl_cascade (.reachable h.reachable) now
  have hordered := h.ordered Op.PrescribesUnused.new Apart.fits
  constructor
  · -- nobody waits for a lock that has a deadline
    intro dk' e' he' hu
    refine hstruck (hcascade.undated (fun k x p hw hp => ?_) (fun n hn hd => ?_) he rfl)
    · exact hordered.reserves.due ((hopens.queue_sublist k).subset hw) he' (hu ▸ hp)
    · exact hordered.agrees.undrawn (hdoes.reads.trans hn) ⟨_, _, .deadline he' (hu.trans hd.symm)⟩
  · rcases hcascade.dates.2 he with hold | ⟨_, n, hlo, hhi, hclock⟩
    · exact absurd hold hstruck
    · exact ⟨n, hdoes.reads.trans hlo, hhi, lt_of_lt_of_le hclock hnow⟩

/-- **A sweep is exact.** In every run with new uuids, `tick_ttl` takes from the table just the locks that are due,
with all their keys, and counts them; no deadline up to `now` that was there is left, and none at all unless the clock
is behind `now`; a second sweep takes nothing if nobody was granted a lock since. -/
theorem RunsIn.tickTtl_exact (h : RunsIn cfg (fun env b op => op.PrescribesUnused env b) Apart env b)
    (now : Instant) : b.SweepsHolders env now ∧ b.SweepsOldDeadlines env now := by
  have hswept := sweep_swept h.consistent now
  have hdue : ∀ u, b.Struck (b.expiredKeys now) u ↔ b.DueBy now u := fun u => struck_expiredKeys h.reachable.numbered
  have hreach : Reachable cfg (b.tickTtl env now).1 := .apply env (.tickTtl now) h.reachable
  refine ⟨⟨fun k u hu => ?_, fun k u hu hsome => ?_, ?_⟩, fun dk e he hnow => h.tickTtl_strikes he hnow,
    fun ops hops => ?_⟩
  · rw [h.tickTtl_under (.inl hu), hswept.taken k u ((hdue u).2 hu)]
  · rw [h.tickTtl_under (.inr hsome), hswept.kept k u fun hst => hu ((hdue u).1 hst)]
  · obtain ⟨us, hus, hcount⟩ := hswept.count
    exact ⟨us, fun u => by rw [hus, hdue], hcount⟩
  · have hanswers : (b.tickTtl env now).1.ledger.Answers ((b.tickTtl env now).1.applyAll env ops).ledger :=
      applyAll_answers hreach ops
    refine tickTtl_nothing env fun dk e he hnow => ?_
    rcases hops with hsame | ⟨hclock, hsame⟩
    · -- nobody was answered since the sweep began
      have hopens : b.Opens (.tickTtl now) (b.sweep now).broker.ledger := sweep_expires b now
      have hcascade : (b.sweep now).broker.ledger.Cascade env (b.tickTtl env now).1.ledger :=
        tickTtl_cascade (.reachable h.reachable) now
      have hold := (hcascade.answers.trans hanswers).due (hsame.trans (Ledger.told_of_past hopens.rest.2).symm) dk e he
      exact sweep_strikes h.reachable.numbered h.consistent hold hnow
    · exact hclock (h.tickTtl_strikes (hanswers.due hsame dk e he) hnow).2

end

end Broker

/-- A composite has `a` and waits for `b`, which is held for a millisecond. -/
def Sample.halfway : Broker :=
  Sample.after [.registerClient, .registerClient,
    Sample.ask 1 (.lock "r" (some "b") none none (some 1) none false 0 false none),
    Sample.ask 2 (Sample.lockAllFor "s" ["a", "b"] 1)]

theorem Sample.runsIn_halfway : Broker.RunsIn Sample.config (fun env b op => op.PrescribesUnused env b) Broker.Apart
    Sample.env Sample.halfway :=
  .applyAll [.registerClient, .registerClient,
      Sample.ask 1 (.lock "r" (some "b") none none (some 1) none false 0 false none),
      Sample.ask 2 (Sample.lockAllFor "s" ["a", "b"] 1)]
    (.new Sample.env Sample.newV4_injective) ⟨.of_none rfl, .of_none rfl, .of_none rfl, .of_none rfl, trivial⟩

namespace Broker

/-- Two milliseconds later by `now`, with the clock standing still, the holder of `b` is taken. -/
theorem RunsIn.tickTtl_exact_halfway : (Sample.halfway.tickTtl Sample.env 2000000).2 = 1 ∧
    Sample.halfway.SweepsHolders Sample.env 2000000 ∧ Sample.halfway.SweepsOldDeadlines Sample.env 2000000 :=
  ⟨by decide +kernel, Sample.runsIn_halfway.tickTtl_exact 2000000⟩

/-- The composite gets `b`, and a deadline a millisecond from the clock, which is before `now`. -/
theorem RunsIn.tickTtl_leaves_deadline :
    RunsIn Sample.config (fun env b op => op.PrescribesUnused env b) Apart Sample.env Sample.halfway ∧
      ¬(Sample.halfway.SweepsHolders Sample.env 2000000 ∧ Sample.halfway.SweepsDeadlines Sample.env 2000000) := by
  refine ⟨Sample.runsIn_halfway, fun ⟨_, hs⟩ => ?_⟩
  have hleft : ((Sample.halfway.tickTtl Sample.env 2000000).1.deadlines[((1000000, 2) : DeadlineKey)]?.map fun e =>
      decide (Sample.halfway.locks.under "a" e.lockUuid = .nobody)) = some false := by decide +kernel
  obtain ⟨e, he, hholds⟩ := Option.map_eq_some_iff.1 hleft
  exact hs.strikes _ e he (by decide) ⟨"a", of_decide_eq_false hholds⟩

end Broker

end LiveMutex
