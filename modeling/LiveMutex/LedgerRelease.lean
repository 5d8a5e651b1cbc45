/-
Releases on the ledger: an unlock, the end of a read or write lease, a client
going away, a deadline passing, a lock losing its owner; and with them every
operation of the broker is a turn on the ledger (`apply_turns`).
-/
import LiveMutex.LedgerOps

namespace LiveMutex

/-! ## Strips as cuts -/

/-- The strip takes from the key what the cut does. -/
structure Strip.Cuts (s : Strip) (c : Cut) (k : String) : Prop where
  waiter : ∀ x p, s.waiter x p = c.waiter k x p
  exclusive : ∀ u h, s.exclusive u h = c.stake k .exclusive u ⟨h.client, h.kept, h.fencingToken⟩
  reader : ∀ u h, s.reader u h = c.stake k .read u ⟨h.client, false, h.fencingToken⟩
  writer : ∀ w, s.writer w = c.stake k .write w.lockUuid ⟨w.client, false, w.fencingToken⟩

theorem LockState.strip_stake (l : LockState) {s : Strip} {c : Cut} {k : String} (h : s.Cuts c k) (kind : RwHoldKind)
    (u : String) : (l.strip s).stake kind u = (l.stake kind u).filter fun st => !c.stake k kind u st := by
  cases kind with
  | exclusive =>
    simp only [stake, strip_exclusiveHolders]
    cases l.exclusiveHolders[u]? with
    | none => rfl
    | some e =>
      simp only [Option.filter, Option.map_some, h.exclusive]
      split <;> rfl
  | read =>
    simp only [stake, strip_readers]
    cases l.readers[u]? with
    | none => rfl
    | some e =>
      simp only [Option.filter, Option.map_some, h.reader]
      split <;> rfl
  | write =>
    simp only [stake, strip]
    cases l.writer with
    | none => rfl
    | some w =>
      by_cases hu : w.lockUuid = u
      · subst hu
        simp only [Option.filter, h.writer]
        by_cases hc : c.stake k .write w.lockUuid ⟨w.client, false, w.fencingToken⟩ = true <;> simp [hc]
      · by_cases hc : s.writer w = true <;> simp [Option.filter, hu, hc]

/-- What is left after a strip was there before. -/
theorem LockState.stake_of_strip {l : LockState} {s : Strip} {kind : RwHoldKind} {u : String} {st : Stake}
    (h : (l.strip s).stake kind u = some st) : l.stake kind u = some st := by
  cases kind with
  | exclusive =>
    simp only [stake, strip_exclusiveHolders, Option.map_eq_some_iff, Option.filter_eq_some_iff] at h ⊢
    obtain ⟨e, ⟨he, _⟩, hst⟩ := h
    exact ⟨e, he, hst⟩
  | read =>
    simp only [stake, strip_readers, Option.map_eq_some_iff, Option.filter_eq_some_iff] at h ⊢
    obtain ⟨e, ⟨he, _⟩, hst⟩ := h
    exact ⟨e, he, hst⟩
  | write =>
    simp only [stake, strip, Option.map_eq_some_iff, Option.filter_eq_some_iff] at h ⊢
    obtain ⟨w, ⟨⟨hw, _⟩, hu⟩, hst⟩ := h
    exact ⟨w, ⟨hw, hu⟩, hst⟩

namespace LockTable

variable {t : LockTable} {f : String → Strip} {c : Cut}

theorem queueAt_strip (h : ∀ k, (f k).Cuts c k) (k : String) :
    (t.strip f).queueAt k = (t.queueAt k).filter fun e => !c.waiter k e.1 e.2 := by
  unfold queueAt
  rw [get_strip]
  cases t[k]? with
  | none => rfl
  | some l => simp only [Option.map_some, Option.elim_some, LockState.strip, LinkedQueue.entries_filter, (h k).waiter]

theorem stakeAt_strip (h : ∀ k, (f k).Cuts c k) (k : String) (kind : RwHoldKind) (u : String) :
    (t.strip f).stakeAt k kind u = (t.stakeAt k kind u).filter fun s => !c.stake k kind u s := by
  unfold stakeAt
  rw [get_strip]
  cases t[k]? with
  | none => rfl
  | some l => exact l.strip_stake (h k) kind u

end LockTable

theorem Broker.canUnlockTarget_eq (b : Broker) (client : ClientId) (force : Bool) (owner : ClientId) :
    b.canUnlockTarget client force owner = (force || owner = client || (b.ledger.handle owner).isNone) := by
  show _ = (force || owner = client || b.clients[owner]?.isNone)
  rw [Broker.canUnlockTarget, Std.ExtTreeMap.contains_eq_isSome_getElem?]
  cases b.clients[owner]? <;> rfl

namespace Strip.Cuts

theorem client (c : ClientId) (k : String) : (Strip.client c).Cuts (.client c) k :=
  ⟨fun _ _ => rfl, fun _ _ => rfl, fun _ _ => rfl, fun _ => rfl⟩

theorem handle (h : ClientHandle) (k : String) : (h.strip k).Cuts h.cut k :=
  ⟨fun _ _ => rfl, fun _ _ => rfl, fun _ _ => by simp [ClientHandle.strip, ClientHandle.cut],
    fun _ => by simp [ClientHandle.strip, ClientHandle.cut]⟩

theorem evict (e : DeadlineEntry) (k : String) :
    (if k ∈ e.keys then Strip.holder e.lockUuid e.kind else .nothing).Cuts e.cut k := by
  by_cases hk : k ∈ e.keys
  · rw [if_pos hk]
    constructor <;> intros <;> cases hkind : e.kind <;> simp [Strip.holder, DeadlineEntry.cut, hk, hkind]
  · rw [if_neg hk]
    constructor <;> intros <;> simp [Strip.nothing, DeadlineEntry.cut, hk]

theorem endRead (key : String) (client : ClientId) (k : String) :
    (Strip.on key { reader := fun _ r => r.client = client } k).Cuts
      { stake := fun k kind _ s => k = key ∧ kind = .read ∧ s.client = client } k := by
  constructor <;> intros <;> simp

theorem endWrite (key : String) (client : ClientId) (k : String) :
    (Strip.on key { writer := fun w => w.client = client } k).Cuts
      { stake := fun k kind _ s => k = key ∧ kind = .write ∧ s.client = client } k := by
  constructor <;> intros <;> simp

theorem unlock (b : Broker) (client : ClientId) (keys : List String) (target : Option String) (force : Bool)
    (k : String) :
    (b.unlockStrip client keys target force k).Cuts (b.ledger.unlockCut client keys target force) k := by
  unfold Broker.unlockStrip
  by_cases hk : k ∈ keys
  · cases target with
    | none =>
      cases force <;> constructor <;> intros <;> simp [Strip.nothing, Strip.unlock, Ledger.unlockCut, hk]
    | some t => constructor <;> intros <;> simp [Strip.unlock, Ledger.unlockCut, hk, b.canUnlockTarget_eq]
  · constructor <;> intros <;> simp [Strip.nothing, Ledger.unlockCut, hk]

end Strip.Cuts

/-- A cut that finds nobody to take. -/
theorem Ledger.Released.same {v : Ledger} {c : Cut} (hw : ∀ k x p, c.waiter k x p = false)
    (hs : ∀ k kind u s, v.stake k kind u = some s → c.stake k kind u s = false) : v.Released c v := by
  refine ⟨v.handle, fun a => ?_, ?_⟩
  · cases h : v.handle a with
    | none => exact .inl ⟨rfl, rfl⟩
    | some hd => exact .inr ⟨hd, hd.heldLockUuids, rfl, rfl, fun _ => .inl rfl⟩
  · refine Ledger.ext (funext fun k => ?_) (funext fun k => funext fun kind => funext fun u => ?_) rfl rfl rfl rfl
    · simp [Ledger.cut, hw]
    · show _ = (v.stake k kind u).filter _
      cases h : v.stake k kind u with
      | none => rfl
      | some s => simp [Option.filter, hs k kind u s h]

namespace Broker

variable {env : Env} {b b' : Broker} {client : ClientId}

/-! ## What the handles forget -/

theorem untrackHolders_get : ∀ (owners : List (ClientId × String)) (b : Broker) (a : ClientId),
    (b.untrackHolders owners).clients[a]? = b.clients[a]?.map fun h =>
      { h with heldLockUuids :=
          ((owners.filter fun o => o.1 = a).map Prod.snd).foldl (fun m u => m.erase u) h.heldLockUuids }
  | [], b, a => by cases h : b.clients[a]? <;> simp [untrackHolders, h]
  | o :: owners, b, a => by
    have hrest := untrackHolders_get owners (b.untrackHolder o.1 o.2) a
    rw [show b.untrackHolders (o :: owners) = (b.untrackHolder o.1 o.2).untrackHolders owners from rfl, hrest,
      untrackHolder, modifyClient_get]
    by_cases ha : o.1 = a
    · simp only [ha, if_true, Option.map_map, List.filter_cons, decide_true, List.map_cons, List.foldl_cons]
      rfl
    · simp only [ha, if_false, List.filter_cons, decide_false, Bool.false_eq_true]

/-- The owners of stakes that are cut are forgotten, and no others. -/
theorem forgets_untrack {c : Cut} (owners : List (ClientId × String)) (hc : b'.clients = b.clients)
    (howners : ∀ o ∈ owners, ∃ k kind s, b.ledger.stake k kind o.2 = some s ∧ s.client = o.1 ∧
      c.stake k kind o.2 s = true) :
    b.ledger.Forgets c fun a => (b'.untrackHolders owners).clients[a]? := by
  intro a
  dsimp only
  rw [untrackHolders_get, hc]
  cases ha : b.clients[a]? with
  | none => exact .inl ⟨ha, rfl⟩
  | some h =>
    refine .inr ⟨h, _, ha, rfl, fun u => ?_⟩
    rw [OrdMap.get_foldl_erase]
    split
    · rename_i hmem
      obtain ⟨o, ho, rfl⟩ := List.mem_map.1 hmem
      obtain ⟨ho, ha⟩ := List.mem_filter.1 ho
      obtain ⟨k, kind, s, hs, hcl, hcut⟩ := howners o ho
      exact .inr ⟨rfl, k, kind, s, hs, hcl.trans (of_decide_eq_true ha), hcut⟩
    · exact .inl rfl

theorem forgets_same {c : Cut} (hc : b'.clients = b.clients) : b.ledger.Forgets c fun a => b'.clients[a]? :=
  forgets_untrack [] hc (by simp)

/-- Only the table differs. -/
def TableOnly (b b' : Broker) : Prop := b' = { b with locks := b'.locks }

theorem TableOnly.refl : b.TableOnly b := rfl

theorem TableOnly.trans {b'' : Broker} (h₁ : b.TableOnly b') (h₂ : b'.TableOnly b'') : b.TableOnly b'' := by
  unfold TableOnly at h₁ h₂ ⊢
  rw [h₂, h₁]

theorem TableOnly.foldl {σ β : Type} (broker : σ → Broker) {f : σ → β → σ}
    (hf : ∀ s x, (broker s).TableOnly (broker (f s x))) (xs : List β) {s : σ} (h : b.TableOnly (broker s)) :
    b.TableOnly (broker (xs.foldl f s)) :=
  List.foldlRecOn (motive := fun s' => b.TableOnly (broker s')) xs _ h fun s' h x _ => h.trans (hf s' x)

theorem modifyLock_tableOnly (key : String) (f : LockState → LockState) : b.TableOnly (b.modifyLock key f) := by
  unfold modifyLock
  split <;> rfl

theorem releaseHeld_tableOnly (u : String) (kind : RwHoldKind) (d : Dropping) (key : String) :
    d.broker.TableOnly (Dropping.releaseHeld u kind d key).broker := by
  unfold Dropping.releaseHeld
  split
  · rfl
  · split <;> rfl

theorem evict_tableOnly (d : Dropping) (entry : DeadlineEntry) : d.broker.TableOnly (d.evict entry).broker :=
  TableOnly.foldl Dropping.broker (fun _ k => modifyLock_tableOnly k _) entry.keys .refl

theorem unlockKeys_tableOnly (env : Env) (b : Broker) (client : ClientId) (keys : List String) (target : Option String)
    (force : Bool) :
    ({ b with reads := b.reads + 1 } : Broker).TableOnly (b.unlockKeys env client keys target force).broker := by
  refine TableOnly.foldl Unlocking.broker (fun acc key => ?_) keys .refl
  unfold Unlocking.key
  split
  · rfl
  · split <;> rfl

/-- A strip and what the handles forget, on the ledger. -/
theorem released_of_strip {f : String → Strip} {c : Cut} (hf : ∀ k, (f k).Cuts c k)
    (hrest : b' = { b with locks := b'.locks, clients := b'.clients, reads := b'.reads })
    (hl : b'.locks = b.locks.strip f) (hh : b.ledger.Forgets c fun a => b'.clients[a]?) :
    ∃ v, b.ledger.Released c v ∧ b'.ledger = v.asked b'.reads := by
  refine ⟨_, ⟨_, hh, rfl⟩, ledger_eq (fun k => ?_) (fun k kind u => ?_) (fun _ => rfl) (fun dk => ?_) ?_ rfl⟩
  · rw [hl]
    exact LockTable.queueAt_strip hf k
  · rw [hl]
    exact LockTable.stakeAt_strip hf k kind u
  · rw [hrest]
    rfl
  · rw [hrest]
    rfl

/-! ## Unlocks -/

end Broker

namespace LockState

variable {l : LockState}

/-- An owner an unlock has taken a hold from had it under the target uuid. -/
theorem unlockTarget_owners {canUnlock : ClientId → Bool} {target : String} {o : ClientId}
    (h : o ∈ (l.unlockTarget canUnlock target).owners) :
    canUnlock o = true ∧ ∃ kind s, l.stake kind target = some s ∧ s.client = o := by
  have hwhen : ∀ {r : Released} {owner : Option ClientId} {drop : LockState → LockState},
      o ∈ (r.when canUnlock owner drop).owners → o ∈ r.owners ∨ owner = some o ∧ canUnlock o = true := by
    intro r owner drop hm
    unfold Released.when at hm
    split at hm
    · exact .inl hm
    · rename_i c
      split at hm
      · rename_i hcan
        rcases List.mem_append.1 hm with hm | hm
        · exact .inl hm
        · obtain rfl := List.mem_singleton.1 hm
          exact .inr ⟨rfl, hcan⟩
      · exact .inl hm
  unfold unlockTarget at h
  rcases hwhen h with h | ⟨hw, hcan⟩
  · rcases hwhen h with h | ⟨hr, hcan⟩
    · rcases hwhen h with h | ⟨he, hcan⟩
      · cases h
      · obtain ⟨e, hget, rfl⟩ := Option.map_eq_some_iff.1 he
        exact ⟨hcan, .exclusive, ⟨e.client, e.kept, e.fencingToken⟩, by simp [stake, hget], rfl⟩
    · obtain ⟨e, hget, rfl⟩ := Option.map_eq_some_iff.1 hr
      exact ⟨hcan, .read, ⟨e.client, false, e.fencingToken⟩, by simp [stake, hget], rfl⟩
  · unfold writerOwner at hw
    split at hw
    · cases hw
    · rename_i w hwr
      split at hw
      · rename_i hu
        obtain rfl := Option.some.inj hw
        exact ⟨hcan, .write, ⟨w.client, false, w.fencingToken⟩, by simp [stake, hwr, hu, Option.filter], rfl⟩
      · cases hw

/-- Everyone listed as an owner has a stake. -/
theorem ownership_stake {order : List String → List String} {o : ClientId × String} (h : o ∈ l.ownership order) :
    ∃ kind s, l.stake kind o.2 = some s ∧ s.client = o.1 := by
  simp only [ownership, List.mem_append, List.mem_filterMap, Option.mem_toList, Option.map_eq_some_iff] at h
  rcases h with (⟨u, _, e, he, rfl⟩ | ⟨u, _, e, he, rfl⟩) | ⟨w, hw, rfl⟩
  · exact ⟨.exclusive, ⟨e.client, e.kept, e.fencingToken⟩, by simp [stake, he], rfl⟩
  · exact ⟨.read, ⟨e.client, false, e.fencingToken⟩, by simp [stake, he], rfl⟩
  · exact ⟨.write, ⟨w.client, false, w.fencingToken⟩, by simp [stake, hw, Option.filter], rfl⟩

end LockState

namespace Broker

variable {env : Env} {b b' : Broker} {client : ClientId}

/-- What the loop of an unlock has noted so far: its holds are on the ledger, and the unlock takes them. -/
structure UnlockNotes (b : Broker) (c : Cut) (acc : Unlocking) : Prop where
  stakes : ∀ {k kind u s}, acc.broker.locks.stakeAt k kind u = some s → b.ledger.stake k kind u = some s
  owners : ∀ o ∈ acc.removedHolderOwnership ++ acc.wipedHolderOwnership, ∃ k kind s,
    b.ledger.stake k kind o.2 = some s ∧ s.client = o.1 ∧ c.stake k kind o.2 s = true

theorem UnlockNotes.key (n : Nat) {keys : List String} {target : Option String} {force : Bool} {key : String}
    {acc : Unlocking} (hok : (target.isSome || force) = true) (hkey : key ∈ keys)
    (h : b.UnlockNotes (b.ledger.unlockCut client keys target force) acc) :
    b.UnlockNotes (b.ledger.unlockCut client keys target force)
      (Unlocking.key (env.order n) (b.canUnlockTarget client force) target acc key) := by
  unfold Unlocking.key
  split
  · exact h
  · rename_i l hl
    -- what stays on the key was there before
    have stays : ∀ {l' : LockState} {s : Strip}, l' = l.strip s → ∀ {k kind u st},
        LockTable.stakeAt (acc.broker.locks.insert key l') k kind u = some st → b.ledger.stake k kind u = some st := by
      intro l' s hs k kind u st hst
      subst hs
      rw [LockTable.stakeAt_insert] at hst
      split at hst
      · rename_i hk
        subst hk
        exact h.stakes (by rw [LockTable.stakeAt_of_some hl]; exact LockState.stake_of_strip hst)
      · exact h.stakes hst
    cases target with
    | some t =>
      refine ⟨stays (l.unlockTarget_eq _ t), fun o ho => ?_⟩
      simp only [List.mem_append, List.mem_map] at ho
      rcases ho with (ho | ⟨a, ha, rfl⟩) | ho
      · exact h.owners o (List.mem_append_left _ ho)
      · obtain ⟨hcan, kind, s, hs, rfl⟩ := LockState.unlockTarget_owners ha
        refine ⟨key, kind, s, h.stakes (by rw [LockTable.stakeAt_of_some hl]; exact hs), rfl, ?_⟩
        rw [b.canUnlockTarget_eq] at hcan
        simpa [Ledger.unlockCut, hkey] using hcan
      · exact h.owners o (List.mem_append_right _ ho)
    | none =>
      refine ⟨stays l.wipe_eq, fun o ho => ?_⟩
      simp only [List.mem_append] at ho
      rcases ho with ho | ho | ho
      · exact h.owners o (List.mem_append_left _ ho)
      · exact h.owners o (List.mem_append_right _ ho)
      · obtain ⟨kind, s, hs, hc⟩ := LockState.ownership_stake ho
        refine ⟨key, kind, s, h.stakes (by rw [LockTable.stakeAt_of_some hl]; exact hs), hc, ?_⟩
        simpa [Ledger.unlockCut, hkey] using hok

theorem unlockKeys_notes (env : Env) (b : Broker) (client : ClientId) (keys : List String) {target : Option String}
    {force : Bool}
    (hok : (target.isSome || force) = true) :
    b.UnlockNotes (b.ledger.unlockCut client keys target force) (b.unlockKeys env client keys target force) := by
  unfold unlockKeys
  refine List.foldlRecOn (motive := b.UnlockNotes (b.ledger.unlockCut client keys target force)) keys _ ?_
    fun acc h key hkey => h.key b.reads hok hkey
  exact ⟨fun h => h, by simp⟩

theorem unlockRelease_released (client : ClientId) (keys : List String) {target : Option String} {force : Bool}
    (hok : (target.isSome || force) = true) :
    ∃ v, b.ledger.Released (b.ledger.unlockCut client keys target force) v ∧
      (b.unlockRelease env client keys target force).ledger =
        v.asked (b.unlockRelease env client keys target force).reads := by
  have hnotes := unlockKeys_notes env b client keys hok
  have hkeys := unlockKeys_tableOnly env b client keys target force
  have hlocks : (b.unlockKeys env client keys target force).broker.locks =
      b.locks.strip (b.unlockStrip client keys target force) := by
    rw [unlockKeys_locks]
    congr 1
    funext k
    simp only [unlockStrip, hok, Bool.true_and, decide_eq_true_eq]
  generalize hacc : b.unlockKeys env client keys target force = acc at *
  have hclients : acc.broker.clients = b.clients := by rw [hkeys]
  have hrest : b.unlockRelease env client keys target force =
      { acc.broker with clients := (b.unlockRelease env client keys target force).clients } := by
    unfold unlockRelease
    dsimp only
    rw [hacc]
    split
    · split
      · exact untrackHolders_same ..
      · rfl
    · exact untrackHolders_same ..
  refine released_of_strip (Strip.Cuts.unlock b client keys target force) (hrest.trans ?_) (by rw [hrest]; exact hlocks) ?_
  · rw [hrest, hkeys]
  unfold unlockRelease
  dsimp only
  rw [hacc]
  split
  · split
    · exact forgets_untrack _ hclients fun o ho => hnotes.owners o (List.mem_append_left _ ho)
    · exact forgets_same hclients
  · exact forgets_untrack _ hclients fun o ho => hnotes.owners o (List.mem_append_right _ ho)

/-! ## Leases -/

theorem endReadRelease_released {key : String} {l : LockState} (client : ClientId) (h : b.locks[key]? = some l) :
    ∃ v, b.ledger.Released { stake := fun k kind _ s => k = key ∧ kind = .read ∧ s.client = client } v ∧
      (b.endReadRelease env client key l).ledger = v.asked (b.endReadRelease env client key l).reads := by
  refine released_of_strip (Strip.Cuts.endRead key client) ?_ (endReadRelease_locks client h) ?_
  · unfold endReadRelease
    dsimp only
    rw [untrackHolders_same]
    rfl
  · unfold endReadRelease
    dsimp only
    refine forgets_untrack _ rfl fun o ho => ?_
    obtain ⟨u, hu, rfl⟩ := List.mem_map.1 ho
    obtain ⟨_, hany⟩ := List.mem_filter.1 hu
    obtain ⟨e, he, hc⟩ := (Option.any_eq_true _ _).1 hany
    refine ⟨key, .read, ⟨e.client, false, e.fencingToken⟩, ?_, of_decide_eq_true hc, by simpa using hc⟩
    show b.locks.stakeAt key .read u = _
    rw [LockTable.stakeAt_of_some h]
    simp [LockState.stake, he]

theorem endWriteRelease_released {key : String} {l : LockState} (client : ClientId) (h : b.locks[key]? = some l) :
    ∃ v, b.ledger.Released { stake := fun k kind _ s => k = key ∧ kind = .write ∧ s.client = client } v ∧
      (b.endWriteRelease client key l).ledger = v.asked (b.endWriteRelease client key l).reads := by
  refine released_of_strip (Strip.Cuts.endWrite key client) ?_ (endWriteRelease_locks client h) ?_
  · unfold endWriteRelease
    split
    · split
      · rw [untrackHolder, modifyClient_eq]
        rfl
      · rfl
    · rfl
  · unfold endWriteRelease
    split
    · rename_i w hw
      split
      · rename_i hc
        refine forgets_untrack [(client, w.lockUuid)] (show (b.setLock key l.clearWriter).clients = b.clients from rfl)
          fun o ho => ?_
        obtain rfl := List.mem_singleton.1 ho
        refine ⟨key, .write, ⟨w.client, false, w.fencingToken⟩, ?_, hc, by simp [hc]⟩
        show b.locks.stakeAt key .write w.lockUuid = _
        rw [LockTable.stakeAt_of_some h]
        simp [LockState.stake, hw, Option.filter]
      · exact forgets_same rfl
    · exact forgets_same rfl

/-! ## Requests -/

section

variable {r : Request} {overrides : GrantOverrides} {op : Op}

theorem Turns.of_released {b₁ : Broker}
    (h : ∃ v, b.ledger.Released (b.ledger.requestCut client r) v ∧ b₁.ledger = v.asked b₁.reads)
    (hj : r.joins = false) (hreads : b.reads ≤ b₁.reads) (hs : b₁.Settles env b') (hb : b₁.Sane) :
    b.Turns env (.request client r overrides) b'.ledger := by
  obtain ⟨v, hv, he⟩ := h
  refine ⟨v, v, hv, .still hj, Relation.ReflTransGen.head (.idle ?_ he) (hs.cascade hb)⟩
  obtain ⟨hs, _, rfl⟩ := hv
  exact hreads

theorem Turns.of_comes (hcut : b.ledger.requestCut client r = {}) (h : b.Comes env (.request client r overrides) b') :
    b.Turns env (.request client r overrides) b'.ledger := by
  obtain ⟨v, he, hc⟩ := h
  refine ⟨b.ledger, v, ?_, he, hc⟩
  show b.ledger.Released (b.ledger.requestCut client r) b.ledger
  rw [hcut]
  exact .same (fun _ _ _ => rfl) fun _ _ _ _ _ => rfl

theorem Turns.of_idles (hcut : b.ledger.requestCut client r = {}) (hj : r.joins = false) (h : b.Idles b') :
    b.Turns env (.request client r overrides) b'.ledger := .of_comes hcut (.of_idles hj h)

theorem handleUnlock_turns (hb : b.Sane) {keys : List String} {target : Option String} {force : Bool}
    (hcut : b.ledger.requestCut client r = b.ledger.unlockCut client keys target force) (hj : r.joins = false) :
    b.Turns env (.request client r overrides) (b.handleUnlock env client r.uuid keys target force).ledger := by
  -- an unlock that is refused takes nothing
  have hnothing : ∀ answer : Response, answer.awarded = none →
      b.ledger.unlockCut client keys target force = {} →
      b.Turns env (.request client r overrides) (b.send client answer).ledger :=
    fun answer ha hc => .of_idles (hcut.trans hc) hj (Idles.refl.send client ha)
  unfold handleUnlock
  split
  · rename_i hk
    rw [List.isEmpty_iff] at hk
    exact hnothing _ rfl (by simp [Ledger.unlockCut, hk])
  · split
    · rename_i hu
      simp only [Bool.and_eq_true, Option.isNone_iff_eq_none, Bool.not_eq_true'] at hu
      exact hnothing _ rfl (by simp [Ledger.unlockCut, hu])
    · rename_i hu
      have hok : (target.isSome || force) = true := by
        cases target with
        | none => simpa using hu
        | some _ => rfl
      have hdoes : b.Does env none (Action.Releases fun _ _ => False) (b.unlockRelease env client keys target force) :=
        unlockRelease_does client keys target force
      have hsane := hb.does hdoes
      have hwake := Settles.tryGrantAll env (b.unlockRelease env client keys target force) keys
      refine .of_released ?_ hj hdoes.reads (hwake.trans (.of_idles (Idles.refl.send client ?_) fun h => h.congr rfl rfl)) hsane
      · rw [hcut]
        exact unlockRelease_released client keys hok
      · rfl

/-- Nobody has a stake in a key without an entry. -/
theorem stake_ne_of_none {key k u : String} {kind : RwHoldKind} {s : Stake} (hn : b.locks[key]? = none)
    (h : b.ledger.stake k kind u = some s) : k ≠ key := by
  intro hk
  subst hk
  have hnone : b.locks.stakeAt k kind u = none := by
    rw [LockTable.stakeAt, hn]
    rfl
  cases hnone.symm.trans h

theorem handleEndRead_turns (hb : b.Sane) {key : String}
    (hcut : b.ledger.requestCut client r = { stake := fun k kind _ s => k = key ∧ kind = .read ∧ s.client = client })
    (hj : r.joins = false) : b.Turns env (.request client r overrides) (b.handleEndRead env client r.uuid key).ledger := by
  unfold handleEndRead
  split
  · rename_i hn
    have hsettles : b.Settles env (b.send client (.endReadResult r.uuid key 0)) :=
      .of_idles (Idles.refl.send client rfl) fun h => h.congr rfl rfl
    refine .of_released ⟨b.ledger, ?_, rfl⟩ hj le_rfl hsettles hb
    rw [hcut]
    exact .same (fun _ _ _ => rfl) fun k kind u s hs => by simp [stake_ne_of_none hn hs]
  · rename_i l hl
    have hdoes : b.Does env none (Action.Releases fun _ _ => False) (b.endReadRelease env client key l) :=
      endReadRelease_does client hl
    refine .of_released ?_ hj hdoes.reads ((Settles.of_idles (Idles.refl.send client ?_) fun h => h.congr rfl rfl).trans
      (.tryGrantNext env _ key)) (hb.does hdoes)
    · rw [hcut]
      exact endReadRelease_released client hl
    · rfl

theorem handleEndWrite_turns (hb : b.Sane) {key : String}
    (hcut : b.ledger.requestCut client r = { stake := fun k kind _ s => k = key ∧ kind = .write ∧ s.client = client })
    (hj : r.joins = false) : b.Turns env (.request client r overrides) (b.handleEndWrite env client r.uuid key).ledger := by
  unfold handleEndWrite
  split
  · rename_i hn
    refine .of_released ⟨b.ledger, ?_, rfl⟩ hj le_rfl (.tryGrantNext env b key) hb
    rw [hcut]
    exact .same (fun _ _ _ => rfl) fun k kind u s hs => by simp [stake_ne_of_none hn hs]
  · rename_i l hl
    have hdoes : b.Does env none (Action.Releases fun _ _ => False) (b.endWriteRelease client key l) :=
      endWriteRelease_does client hl
    refine .of_released ?_ hj hdoes.reads ((Settles.of_idles (Idles.refl.send client ?_) fun h => h.congr rfl rfl).trans
      (.tryGrantNext env _ key)) (hb.does hdoes)
    · rw [hcut]
      exact endWriteRelease_released client hl
    · rfl

theorem handleRequest_turns (hb : b.Sane) (client : ClientId) (r : Request) (overrides : GrantOverrides) :
    b.Turns env (.request client r overrides) (b.handleRequest env client r overrides).ledger := by
  cases r with
  | version uuid v => exact .of_idles rfl rfl (Idles.refl.send client rfl)
  | auth uuid t => exact .of_idles rfl rfl (Idles.refl.send client rfl)
  | lock uuid key keys pid ttl max force retry keep wait =>
    unfold handleRequest
    dsimp only
    split
    · rename_i hmax
      have hj : (Request.lock uuid key keys pid ttl max force retry keep wait).joins = false := by
        cases key <;> cases keys <;> simp [Request.joins, hmax]
      cases keys <;> exact .of_idles rfl hj (Idles.refl.send client rfl)
    · rename_i hmax
      split
      · exact .of_comes rfl (handleExclusiveLock_comes (r := .lock uuid _ none pid ttl max force retry keep wait) rfl max
          (by simp [Request.joins, hmax]))
      · exact .of_comes rfl (handleCompositeLock_comes hb (r := .lock uuid none _ pid ttl max force retry keep wait) rfl _
          (by simp [Request.joins, hmax]))
      · exact .of_idles rfl rfl (Idles.refl.send client rfl)
      · exact .of_idles rfl rfl (Idles.refl.send client rfl)
  | unlock uuid key keys lockUuid force =>
    cases key <;> cases keys
    · exact .of_idles rfl rfl (Idles.refl.send client rfl)
    · exact handleUnlock_turns hb (r := .unlock uuid none _ lockUuid force) rfl rfl
    · exact handleUnlock_turns hb (r := .unlock uuid _ none lockUuid force) rfl rfl
    · exact .of_idles rfl rfl (Idles.refl.send client rfl)
  | registerRead uuid key => exact .of_comes rfl (handleRegisterRead_comes (r := .registerRead uuid key) rfl rfl)
  | registerWrite uuid key => exact .of_comes rfl (handleRegisterWrite_comes (r := .registerWrite uuid key) rfl rfl)
  | endRead uuid key => exact handleEndRead_turns hb (r := .endRead uuid key) rfl rfl
  | endWrite uuid key => exact handleEndWrite_turns hb (r := .endWrite uuid key) rfl rfl
  | lockInfo uuid key =>
    unfold handleRequest
    dsimp only
    split
    · exact .of_idles rfl rfl (Idles.reading.send client rfl)
    · exact .of_idles rfl rfl (Idles.reading.send client rfl)
  | ls uuid => exact .of_idles rfl rfl (Idles.reading.send client rfl)
  | heartbeat uuid => exact .of_idles rfl rfl (Idles.refl.send client rfl)

end

/-! ## A client goes -/

theorem wakeTouched_settles {d : Dropping} {wake : Broker → String → Broker}
    (hw : ∀ (b : Broker) (key : String), b.Settles env (wake b key)) :
    d.broker.Settles env (wakeTouched env d wake) := by
  have hread : d.broker.Settles env { d.broker with reads := d.broker.reads + 1 } :=
    .of_idles .reading fun h => h.congr rfl rfl
  exact hread.trans (.foldl hw _ _)

theorem dropRegistered_tableOnly (env : Env) (b : Broker) (client : ClientId) (handle : ClientHandle) :
    ({ b with clients := b.clients.erase client, reads := b.reads + 1 } : Broker).TableOnly
      (b.dropRegistered env client handle).broker := by
  unfold dropRegistered
  dsimp only
  refine TableOnly.foldl Dropping.broker (fun d (e : String × KeysOfLock) =>
    TableOnly.foldl Dropping.broker (releaseHeld_tableOnly e.1 e.2.rwKind) e.2.keys .refl) _ ?_
  exact TableOnly.foldl Dropping.broker (fun d p => modifyLock_tableOnly _ _) _ .refl

theorem dropUnregistered_tableOnly (env : Env) (b : Broker) (client : ClientId) :
    ({ b with reads := b.reads + 1 } : Broker).TableOnly (b.dropUnregistered env client).broker := by
  unfold dropUnregistered
  dsimp only
  refine TableOnly.foldl Dropping.broker (fun d key => modifyLock_tableOnly _ _) _ ?_
  refine TableOnly.foldl Dropping.broker (fun d p => modifyLock_tableOnly _ _) _ ?_
  refine TableOnly.foldl Dropping.broker (fun d p => modifyLock_tableOnly _ _) _ ?_
  exact TableOnly.foldl Dropping.broker (fun d p => modifyLock_tableOnly _ _) _ .refl

/-- A strip alone, on the ledger. -/
theorem ledger_of_strip {f : String → Strip} {c : Cut} {b₀ : Broker} (hf : ∀ k, (f k).Cuts c k)
    (h : b₀.TableOnly b') (hl : b'.locks = b₀.locks.strip f) : b'.ledger = b₀.ledger.cut c := by
  refine ledger_eq (fun k => ?_) (fun k kind u => ?_) (fun a => ?_) (fun dk => ?_) ?_ ?_
  · rw [hl]
    exact LockTable.queueAt_strip hf k
  · rw [hl]
    exact LockTable.stakeAt_strip hf k kind u
  all_goals
    rw [h]
    rfl

theorem dropRegistered_ledger {handle : ClientHandle} (hc : b.clients[client]? = some handle) :
    (b.dropRegistered env client handle).broker.ledger =
      (b.ledger.drop client).asked (b.dropRegistered env client handle).broker.reads := by
  have hdrop : b.ledger.drop client = (b.ledger.expel client).cut handle.cut := by
    unfold Ledger.drop
    rw [show b.ledger.handle client = some handle from hc]
  have hexpel : ({ b with clients := b.clients.erase client, reads := b.reads + 1 } : Broker).ledger =
      (b.ledger.expel client).asked (b.reads + 1) :=
    ledger_eq (fun _ => rfl) (fun _ _ _ => rfl) (fun a => OrdMap.get_erase ..) (fun _ => rfl) rfl rfl
  have hrest := dropRegistered_tableOnly env b client handle
  rw [ledger_of_strip (Strip.Cuts.handle handle) hrest (dropRegistered_locks client handle), hexpel, hdrop, hrest]
  rfl

theorem dropUnregistered_ledger (hc : b.clients[client]? = none) :
    (b.dropUnregistered env client).broker.ledger =
      (b.ledger.drop client).asked (b.dropUnregistered env client).broker.reads := by
  have hdrop : b.ledger.drop client = b.ledger.cut (.client client) := by
    unfold Ledger.drop
    rw [show b.ledger.handle client = none from hc]
  have hrest := dropUnregistered_tableOnly env b client
  rw [ledger_of_strip (Strip.Cuts.client client) hrest (dropUnregistered_locks client), hdrop, hrest]
  rfl

/-- After a release whose ledger is known, waiters are granted. -/
theorem Turns.of_opens {b₁ : Broker} {op : Op} {v : Ledger} (hj : op.joins = false) (ho : b.Opens op v)
    (he : b₁.ledger = v.asked b₁.reads)
    (hreads : v.reads ≤ b₁.reads) (hs : b₁.Settles env b') (hb : b₁.Sane) : b.Turns env op b'.ledger :=
  ⟨v, v, ho, .still hj, Relation.ReflTransGen.head (.idle hreads he) (hs.cascade hb)⟩

theorem dropClient_turns (hb : b.Sane) (client : ClientId) :
    b.Turns env (.dropClient client) (b.dropClient env client).ledger := by
  unfold dropClient
  split
  · rename_i hc
    have hdoes : b.Does env none _ (b.dropUnregistered env client).broker := dropUnregistered_does hc
    refine .of_opens rfl rfl (dropUnregistered_ledger hc) ?_ (wakeTouched_settles fun b key =>
      (Settles.maybeMarkIdle env b key).trans (.tryGrantNext env _ key)) (hb.does hdoes)
    have hreads : (b.ledger.drop client).reads = b.reads := by unfold Ledger.drop; split <;> rfl
    rw [hreads]
    exact hdoes.reads
  · rename_i handle hc
    have hdoes : b.Does env none _ (b.dropRegistered env client handle).broker := dropRegistered_does hc
    refine .of_opens rfl rfl (dropRegistered_ledger hc) ?_ (wakeTouched_settles fun b key => .tryGrantNext env b key)
      (hb.does hdoes)
    have hreads : (b.ledger.drop client).reads = b.reads := by unfold Ledger.drop; split <;> rfl
    rw [hreads]
    exact hdoes.reads

/-! ## The sweep -/

/-- A handle forgets a lock. -/
theorem untrackHolder_ledger (b : Broker) (client : ClientId) (u : String) : (b.untrackHolder client u).ledger =
    b.ledger.note client fun h => { h with heldLockUuids := h.heldLockUuids.erase u } := by
  have hrest : b.untrackHolder client u = { b with clients := (b.untrackHolder client u).clients } := modifyClient_eq ..
  refine ledger_eq (fun k => ?_) (fun k kind w => ?_) (fun a => modifyClient_get ..) (fun dk => ?_) ?_ ?_
  all_goals
    rw [hrest]
    rfl

theorem expire_ledger {s : Sweeping} {dk : DeadlineKey} {now : Instant} (hnow : dk.1 ≤ now) :
    (s.expire dk).broker.ledger = s.broker.ledger ∨ s.broker.ledger.Expires now (s.expire dk).broker.ledger := by
  unfold Sweeping.expire
  split
  · exact .inl rfl
  · rename_i e he
    dsimp only
    split
    · refine .inr (.evict he hnow ?_)
      have htable := evict_tableOnly ⟨{ s.broker with deadlines := s.broker.deadlines.erase dk }, s.touchedKeys⟩ e
      have hlocks := evict_locks ⟨{ s.broker with deadlines := s.broker.deadlines.erase dk }, s.touchedKeys⟩ e
      generalize (Dropping.evict ⟨{ s.broker with deadlines := s.broker.deadlines.erase dk }, s.touchedKeys⟩
        e).broker = b' at *
      have hevict : b'.ledger = (s.broker.ledger.strike dk).cut e.cut := by
        have hstrike : ({ s.broker with deadlines := s.broker.deadlines.erase dk } : Broker).ledger =
            s.broker.ledger.strike dk :=
          ledger_eq (fun _ => rfl) (fun _ _ _ => rfl) (fun _ => rfl) (fun dk => OrdMap.get_erase ..) rfl rfl
        rw [ledger_of_strip (Strip.Cuts.evict e) htable hlocks, hstrike]
      rw [← hevict]
      exact untrackHolder_ledger b' e.client e.lockUuid
    · refine .inr (.stale he hnow ?_)
      exact ledger_eq (fun _ => rfl) (fun _ _ _ => rfl) (fun _ => rfl) (fun dk => OrdMap.get_erase ..) rfl rfl

theorem sweep_expires (b : Broker) (now : Instant) :
    Relation.ReflTransGen (Ledger.Expires now) b.ledger (b.sweep now).broker.ledger := by
  unfold sweep
  refine List.foldlRecOn (motive := fun s : Sweeping => Relation.ReflTransGen (Ledger.Expires now) b.ledger s.broker.ledger)
    _ _ .refl fun s h dk hdk => ?_
  have hnow : dk.1 ≤ now := by
    obtain ⟨_, hd⟩ := List.mem_filter.1 hdk
    simp only [Bool.or_eq_true, Bool.and_eq_true, decide_eq_true_eq] at hd
    rcases hd with hd | hd
    · exact le_of_lt hd
    · exact le_of_eq hd.1
  rcases expire_ledger (s := s) hnow with he | he
  · rw [he]
    exact h
  · exact h.tail he

/-- An idle key has no queue and no stakes. -/
theorem isIdle_ledger {l : LockState} (h : l.isIdle = true) : l.queue.entries = [] ∧ ∀ kind u, l.stake kind u = none := by
  simp only [LockState.isIdle, Bool.and_eq_true, LinkedQueue.isEmpty, List.isEmpty_iff, Std.ExtTreeMap.isEmpty_iff,
    Option.isNone_iff_eq_none] at h
  obtain ⟨⟨⟨he, hr⟩, hw⟩, hq⟩ := h
  refine ⟨hq, fun kind u => ?_⟩
  cases kind <;> simp [LockState.stake, he, hr, hw]

theorem prune_same (env : Env) (b : Broker) (now : Instant) : b.locks.Same (b.prune env now).locks := by
  have hkey : ∀ k : String, (b.prune env now).locks[k]? = b.locks[k]? ∨
      (b.prune env now).locks[k]? = none ∧ ∃ l : LockState, b.locks[k]? = some l ∧ l.isIdle = true := by
    intro k
    cases hl : b.locks[k]? with
    | none =>
      cases hp : (b.prune env now).locks[k]? with
      | none => exact .inl rfl
      | some l =>
        rw [get_of_prune hp] at hl
        cases hl
    | some l =>
      have hor : (b.prune env now).locks[k]? = some l ∨ (b.prune env now).locks[k]? = none ∧ l.isIdle = true :=
        prune_get hl
      rcases hor with hk | ⟨hk, hidle⟩
      · exact .inl hk
      · exact .inr ⟨hk, l, rfl, hidle⟩
  constructor
  · intro k
    unfold LockTable.queueAt
    rcases hkey k with hk | ⟨hk, l, hl, hidle⟩
    · rw [hk]
    · rw [hk, hl]
      exact (isIdle_ledger hidle).1.symm
  · intro k kind u
    unfold LockTable.stakeAt
    rcases hkey k with hk | ⟨hk, l, hl, hidle⟩
    · rw [hk]
    · rw [hk, hl]
      exact ((isIdle_ledger hidle).2 kind u).symm

theorem prune_idles (env : Env) (b : Broker) (now : Instant) : b.Idles (b.prune env now) := by
  have hrest : b.prune env now = { b with
      locks := (b.prune env now).locks, idleKeysPrunedTotal := (b.prune env now).idleKeysPrunedTotal } := by
    unfold prune
    split
    · rfl
    · split <;> rfl
  have hsame := prune_same env b now
  generalize b.prune env now = b' at *
  exact ⟨hsame, by rw [hrest], by rw [hrest], past_eq (by rw [hrest]) (by rw [hrest]), by rw [hrest]⟩

/-- What follows the deadline loop. -/
theorem tickTtl_cascade (hb : b.Sane) (now : Instant) :
    (b.sweep now).broker.ledger.Cascade env (b.tickTtl env now).1.ledger := by
  have hdoes : b.Does env none (Action.Releases fun _ _ => False) (b.sweep now).broker := sweep_does now
  have hwake : (b.sweep now).broker.Settles env
      (wakeTouched env (b.sweep now).toDropping fun b key => b.tryGrantNext env key) :=
    wakeTouched_settles fun b key => .tryGrantNext env b key
  exact (hwake.cascade (hb.does hdoes)).tail (prune_idles env _ now).grants

theorem tickTtl_turns (hb : b.Sane) (now : Instant) : b.Turns env (.tickTtl now) (b.tickTtl env now).1.ledger :=
  ⟨_, _, sweep_expires b now, .still rfl, tickTtl_cascade hb now⟩

/-! ## A lock loses its owner -/

end Broker

theorem LockState.detachOwner_stake (l : LockState) (u : String) (kind : RwHoldKind) (w : String) :
    (l.detachOwner u).stake kind w =
      if u = w then (l.stake kind w).map fun s => { s with client := snapshotDetachedClient } else l.stake kind w := by
  cases kind with
  | exclusive =>
    simp only [stake, detachOwner, OrdMap.get_modify]
    split
    · rename_i he
      subst he
      cases l.exclusiveHolders[u]? <;> simp [ExclusiveHolder.kept]
    · rfl
  | read =>
    simp only [stake, detachOwner, OrdMap.get_modify]
    split
    · rename_i he
      subst he
      cases l.readers[u]? <;> simp
    · rfl
  | write =>
    simp only [stake, detachOwner]
    cases l.writer with
    | none => simp
    | some h =>
      by_cases hw : h.lockUuid = w
      · subst hw
        by_cases hu : h.lockUuid = u
        · simp [hu, Option.filter]
        · simp [hu, Ne.symm hu, Option.filter]
      · by_cases hu : h.lockUuid = u
        · simp [hu, Option.filter, show ¬u = w from fun he => hw (hu.trans he)]
        · simp [hu, hw, Option.filter]

/-- The owners under a uuid are those who have a stake under it. -/
theorem LockState.mem_ownersOf {l : LockState} {u : String} {a : ClientId} :
    a ∈ l.ownersOf u ↔ ∃ kind s, l.stake kind u = some s ∧ s.client = a := by
  have hw : l.writerOwner u = (l.stake .write u).map (·.client) := by
    unfold writerOwner stake
    cases l.writer with
    | none => rfl
    | some w => by_cases hu : w.lockUuid = u <;> simp [hu, Option.filter]
  have he : l.exclusiveHolders[u]?.map (·.client) = (l.stake .exclusive u).map (·.client) := by
    unfold stake
    cases l.exclusiveHolders[u]? <;> rfl
  have hr : l.readers[u]?.map (·.client) = (l.stake .read u).map (·.client) := by
    unfold stake
    cases l.readers[u]? <;> rfl
  simp only [ownersOf, hw, he, hr, List.mem_append, Option.mem_toList, Option.map_eq_some_iff]
  constructor
  · intro h
    rcases h with (⟨s, hs, hc⟩ | ⟨s, hs, hc⟩) | ⟨s, hs, hc⟩
    · exact ⟨.exclusive, s, hs, hc⟩
    · exact ⟨.read, s, hs, hc⟩
    · exact ⟨.write, s, hs, hc⟩
  · intro ⟨kind, s, hs, hc⟩
    cases kind with
    | exclusive => exact .inl (.inl ⟨s, hs, hc⟩)
    | read => exact .inl (.inr ⟨s, hs, hc⟩)
    | write => exact .inr ⟨s, hs, hc⟩

namespace Broker

variable {env : Env} {b : Broker}

/-- The handle of a client whose lock is detached. -/
def detachedHandle (u : String) (a : ClientId) (handle : Option ClientHandle) : Option ClientHandle :=
  if a = snapshotDetachedClient then handle
  else handle.bind fun h =>
    if (h.heldLockUuids.erase u).isEmpty && h.pendingRequestUuids.isEmpty then none
    else some { h with heldLockUuids := h.heldLockUuids.erase u }

theorem detachFrom_get (u : String) (b : Broker) (client a : ClientId) :
    (detachFrom u b client).clients[a]? =
      if client = a then detachedHandle u a b.clients[a]? else b.clients[a]? := by
  unfold detachFrom detachedHandle
  by_cases ha : client = a
  · subst ha
    rw [if_pos rfl]
    split
    · rfl
    · cases hh : b.clients[client]? with
      | none => exact hh
      | some handle =>
        dsimp only [Option.bind_some]
        split
        · simp
        · simp [setClient]
  · rw [if_neg ha]
    split
    · rfl
    · split
      · rfl
      · dsimp only
        split
        · dsimp only
          rw [OrdMap.get_erase, if_neg ha]
        · rw [setClient, OrdMap.get_insert, if_neg ha]

theorem foldl_detachFrom_get (u : String) : ∀ (cs : List ClientId) (b : Broker) (a : ClientId), cs.Nodup →
    (cs.foldl (detachFrom u) b).clients[a]? = if a ∈ cs then detachedHandle u a b.clients[a]? else b.clients[a]?
  | [], b, a, _ => by simp
  | c :: cs, b, a, hnd => by
    obtain ⟨hc, hnd⟩ := List.nodup_cons.1 hnd
    rw [List.foldl_cons, foldl_detachFrom_get u cs _ a hnd, detachFrom_get]
    by_cases ha : c = a
    · subst ha
      simp [hc]
    · simp [ha, Ne.symm ha]

theorem foldl_detachFrom_eq (u : String) (cs : List ClientId) (b : Broker) :
    cs.foldl (detachFrom u) b = { b with clients := (cs.foldl (detachFrom u) b).clients } :=
  List.foldlRecOn (motive := fun b' : Broker => b' = { b with clients := b'.clients }) cs _ rfl fun b' h c _ => by
    rw [detachFrom_eq, h]

theorem detachedHandle_cases (u : String) {a : ClientId} (ha : a ≠ snapshotDetachedClient) (h : ClientHandle) :
    detachedHandle u a (some h) = some { h with heldLockUuids := h.heldLockUuids.erase u } ∨
      detachedHandle u a (some h) = none ∧ h.pendingRequestUuids = [] := by
  unfold detachedHandle
  rw [if_neg ha, Option.bind_some]
  split
  · rename_i hempty
    simp only [Bool.and_eq_true, List.isEmpty_iff] at hempty
    exact .inr ⟨rfl, hempty.2⟩
  · exact .inl rfl

theorem detachLockOwner_eq (b : Broker) (u : String) : b.detachLockOwner u = { b with
    locks := b.locks.map fun _ l => l.detachOwner u, clients := (b.detachLockOwner u).clients } :=
  foldl_detachFrom_eq u _ _

theorem detachLockOwner_locks (b : Broker) (u : String) :
    (b.detachLockOwner u).locks = b.locks.map fun _ l => l.detachOwner u := by
  rw [detachLockOwner_eq]

/-- The owners that `detach_lock_owner` looks for are those who have a stake under the uuid. -/
theorem mem_owners {u : String} {a : ClientId} : a ∈ (b.locks.toList.flatMap fun kl => kl.2.ownersOf u).dedup ↔
    ∃ k kind s, b.ledger.stake k kind u = some s ∧ s.client = a := by
  simp only [List.mem_dedup, List.mem_flatMap, LockState.mem_ownersOf]
  constructor
  · intro ⟨kl, hkl, kind, s, hs, hc⟩
    refine ⟨kl.1, kind, s, ?_, hc⟩
    show b.locks.stakeAt kl.1 kind u = some s
    rw [LockTable.stakeAt_of_some (Std.ExtTreeMap.mem_toList_iff_getElem?_eq_some.1 hkl)]
    exact hs
  · intro ⟨k, kind, s, hs, hc⟩
    obtain ⟨l, hl, hst⟩ := Option.bind_eq_some_iff.1 hs
    exact ⟨(k, l), Std.ExtTreeMap.mem_toList_iff_getElem?_eq_some.2 hl, kind, s, hst, hc⟩

theorem detachLockOwner_detached (b : Broker) (u : String) : b.ledger.Detached u (b.detachLockOwner u).ledger := by
  have hget : ∀ a : ClientId, (b.detachLockOwner u).clients[a]? =
      if a ∈ (b.locks.toList.flatMap fun kl => kl.2.ownersOf u).dedup then detachedHandle u a b.clients[a]?
      else b.clients[a]? := fun a => foldl_detachFrom_get u _ _ a (List.nodup_dedup _)
  have hrest := detachLockOwner_eq b u
  refine ⟨funext fun k => ?_, fun k kind w => ?_, fun a => ?_, fun a k kind s hs hc ha h' hh' => ?_, ?_, ?_, ?_⟩
  · show (b.detachLockOwner u).locks.queueAt k = b.locks.queueAt k
    rw [detachLockOwner_locks, LockTable.queueAt, Std.ExtTreeMap.getElem?_map, LockTable.queueAt]
    cases b.locks[k]? <;> rfl
  · show (b.detachLockOwner u).locks.stakeAt k kind w =
      if u = w then (b.locks.stakeAt k kind w).map _ else b.locks.stakeAt k kind w
    rw [detachLockOwner_locks, LockTable.stakeAt, Std.ExtTreeMap.getElem?_map, LockTable.stakeAt]
    cases b.locks[k]? with
    | none => simp
    | some l => exact l.detachOwner_stake u kind w
  · show (b.detachLockOwner u).clients[a]? = b.clients[a]? ∨ _
    rw [show (b.detachLockOwner u).ledger.handle a = (b.detachLockOwner u).clients[a]? from rfl, hget]
    split
    · rename_i hmem
      by_cases ha : a = snapshotDetachedClient
      · exact .inl (by rw [detachedHandle, if_pos ha])
      · cases hh : b.clients[a]? with
        | none => exact .inl (by rw [detachedHandle, if_neg ha]; rfl)
        | some h => exact .inr ⟨mem_owners.1 hmem, h, hh, detachedHandle_cases u ha h⟩
    · exact .inl rfl
  · rw [show (b.detachLockOwner u).ledger.handle a = (b.detachLockOwner u).clients[a]? from rfl, hget,
      if_pos (mem_owners.2 ⟨k, kind, s, hs, hc⟩)] at hh'
    cases hh : b.clients[a]? with
    | none =>
      rw [hh, detachedHandle, if_neg ha] at hh'
      cases hh'
    | some h =>
      rw [hh] at hh'
      rcases detachedHandle_cases u ha h with he | ⟨he, _⟩
      · rw [he] at hh'
        obtain rfl := Option.some.inj hh'
        simp
      · rw [he] at hh'
        cases hh'
  · show (fun dk => (b.detachLockOwner u).deadlines[dk]?) = fun dk => b.deadlines[dk]?
    rw [hrest]
  · exact past_eq (by rw [hrest]) (by rw [hrest])
  · show (b.detachLockOwner u).reads = b.reads
    rw [hrest]

/-! ## Every operation -/

theorem Turns.of_still {op : Op} {v : Ledger} (hj : op.joins = false) (h : b.Opens op v) : b.Turns env op v :=
  ⟨v, v, h, .still hj, .refl⟩

theorem registerClientWithId_ledger (b : Broker) (preferredId : ClientId) :
    (b.registerClientWithId preferredId).1.ledger = b.ledger.register (b.nextAvailableClientId preferredId) :=
  ledger_eq (fun _ => rfl) (fun _ _ _ => rfl) (fun _ => OrdMap.get_insert ..) (fun _ => rfl) rfl rfl

/-- **Every operation of the broker is a turn on its ledger.** -/
theorem apply_turns (env : Env) (hb : b.Sane) (op : Op) : b.Turns env op (b.apply env op).ledger := by
  cases op with
  | registerClient => exact .of_still rfl (registerClientWithId_ledger b b.nextClientId)
  | registerClientWithId id => exact .of_still rfl (registerClientWithId_ledger b id)
  | request client r overrides => exact handleRequest_turns hb client r overrides
  | dropClient client => exact dropClient_turns hb client
  | detachLockFromClient client u => exact .of_still rfl (untrackHolder_ledger b client u)
  | detachLockOwner u => exact .of_still rfl (detachLockOwner_detached b u)
  | tickTtl now => exact tickTtl_turns hb now

end Broker

end LiveMutex
