/-
Every snapshot can be installed, as long as no release takes some keys of a lock
with a deadline and leaves others: a deadline is exported while one of its keys is
held, and accepted only when all of them are. A composite lock with a TTL can lose
single keys to an unlock, or to the drop of an unregistered client.
-/
import LiveMutex.CompositeGrant
import LiveMutex.SnapshotValid

namespace LiveMutex

namespace Ledger

variable {v v' : Ledger} {env : Env}

/-- The deadline is for exclusive holds, and when one of its keys is held under
its uuid, all of them are, and alike. -/
def Even (v : Ledger) (e : DeadlineEntry) : Prop :=
  e.kind = .exclusive ∧ ∀ k ∈ e.keys, ∀ s, v.stake k .exclusive e.lockUuid = some s →
    ∀ k' ∈ e.keys, ∃ s', v.stake k' .exclusive e.lockUuid = some s' ∧ s'.kept = s.kept

def Dated (v : Ledger) : Prop := ∀ dk e, v.due dk = some e → v.Even e

/-- Nothing changes under the deadline's uuid. -/
theorem Even.same {e : DeadlineEntry} (h : v.Even e)
    (hs : ∀ k, v'.stake k .exclusive e.lockUuid = v.stake k .exclusive e.lockUuid) : v'.Even e := by
  unfold Even
  simp only [hs]
  exact h

/-- All its keys are held, and alike. -/
theorem Even.of_all {e : DeadlineEntry} (kept : Bool) (hkind : e.kind = .exclusive)
    (h : ∀ k ∈ e.keys, ∃ s, v.stake k .exclusive e.lockUuid = some s ∧ s.kept = kept) : v.Even e := by
  refine ⟨hkind, fun k hk s hs k' hk' => ?_⟩
  obtain ⟨s₁, hs₁, hkept⟩ := h k hk
  obtain ⟨s₂, hs₂, hkept'⟩ := h k' hk'
  obtain rfl := Option.some.inj (hs.symm.trans hs₁)
  exact ⟨s₂, hs₂, hkept'.trans hkept.symm⟩

theorem Grants.dated (h : v.Grants env v') (hv : v.Ordered env) (hp : v.Parts fun p => p.ttl.isSome)
    (hd : v.Dated) : v'.Dated := by
  cases h with
  | idle _ h =>
    subst h
    exact hd
  | @serve token key u p rest n a d hq hlast hu hn ha hdue h =>
    subst h
    obtain ⟨_, hundated⟩ := hv.reserves.head_free hv.agrees hv.distinct hq hu
    intro dk e he
    rcases due_of_schedule he with he | he
    · exact (hd dk e he).same fun k => hand_stake_ne (hundated he).symm
    obtain ⟨hdates, httl⟩ := hdue (dk, e) he
    have hentry := hdates.entry
    have hexcl := hdates.exclusive
    dsimp only at hentry
    subst hentry
    cases hc : p.kind with
    | composite c =>
      obtain rfl := hu.composite hc
      refine .of_all false hexcl fun k hk => ?_
      have hk' : k ∈ c.grantedKeys ++ [key] := by simpa [PendingRequest.wants, hc, ← hlast c hc] using hk
      obtain ⟨s, hs, hkept, _⟩ := HasPart.hand token hc (hp key _ p c (waits_head hq) httl hc) hk'
      exact ⟨s, hs, hkept⟩
    | _ =>
      refine .of_all p.keeps hexcl fun k hk => ?_
      obtain rfl : k = key := by simpa [PendingRequest.wants, hc] using hk
      exact ⟨⟨p.client, p.keeps, token⟩, if_pos ⟨List.mem_singleton_self _, hexcl, rfl⟩, rfl⟩
  | @advance token n key next p rest c more hq hk hmore hn h =>
    subst h
    intro dk e he
    exact (hd dk e he).same fun k =>
      hand_stake_ne fun hu => hv.reserves.due (waits_head hq) he (hu ▸ PendingRequest.reserved_of_composite hk)

theorem Enters.dated {op : Op} (h : v.Enters env op v') (hv : v.Agrees env)
    (hnew : ∀ u, op.given = some u → ¬v.Known u ∧ ∀ m, v.reads ≤ m → env.newV4 m ≠ u) (hd : v.Dated) : v'.Dated := by
  cases h with
  | still _ => exact hd
  | @award lock kept token client r overrides u a d n _ hu hn _ hdue =>
    have hunk : ¬v.Known u := hu.new (fun w hw => (hnew w hw).1) fun _ => hv.undrawn
    intro dk e he
    rcases due_of_schedule he with he | he
    · exact (hd dk e he).same fun k => award_stake_ne (a := a) (d := d) fun hu => hunk ⟨_, _, .deadline he hu.symm⟩
    · have hentry := (hdue (dk, e) he).entry
      have hexcl := (hdue (dk, e) he).exclusive
      dsimp only at hentry
      subst hentry
      exact .of_all kept hexcl fun k hk => ⟨⟨client, kept, token k⟩, if_pos ⟨hk, hexcl, rfl⟩, rfl⟩
  | enqueue => exact hd

/-- Of every deadline, the cut takes all the keys that are held under its uuid,
or none. -/
def CutsWhole (v : Ledger) (c : Cut) : Prop := ∀ dk e, v.due dk = some e →
  (∀ k ∈ e.keys, ∀ s, v.stake k .exclusive e.lockUuid = some s → c.stake k .exclusive e.lockUuid s = false) ∨
    ∀ k ∈ e.keys, ∀ s, v.stake k .exclusive e.lockUuid = some s → c.stake k .exclusive e.lockUuid s = true

/-- The handle of a client that notes a deadline's uuid notes all its keys. -/
theorem Dated.cutsWhole (h : v.Dated) (hv : v.Agrees env) {client : ClientId} {handle : ClientHandle}
    (hh : v.handle client = some handle) : v.CutsWhole handle.cut := by
  intro dk e he
  obtain ⟨hkind, heven⟩ := h dk e he
  by_cases hkept : ∃ k ∈ e.keys, ∃ s, v.stake k .exclusive e.lockUuid = some s ∧
      handle.cut.stake k .exclusive e.lockUuid s = true
  · obtain ⟨k₀, hk₀, s₀, hs₀, hcut⟩ := hkept
    simp only [ClientHandle.cut, Bool.and_eq_true, Option.any_eq_true, Bool.not_eq_true'] at hcut
    obtain ⟨⟨ko, hko, _⟩, hfalse⟩ := hcut
    obtain ⟨rfl, _⟩ := hv.agree (.handle hh hko) (.deadline he rfl)
    refine .inr fun k hk s hs => ?_
    obtain ⟨s', hs', hsame⟩ := heven k₀ hk₀ s₀ hs₀ k hk
    obtain rfl := Option.some.inj (hs.symm.trans hs')
    simp [ClientHandle.cut, hko, hk, hkind, hsame, hfalse]
  · exact .inl fun k hk s hs => Bool.not_eq_true _ ▸ fun ht => hkept ⟨k, hk, s, hs, ht⟩

end Ledger

/-! ## Releases -/

/-- Of every deadline, the operation takes all the keys that are held under its
uuid, or none. -/
def Op.takesWhole (b : Broker) (op : Op) : Bool :=
  b.deadlines.toList.all fun (_, e) =>
    (e.keys.all fun k => !op.takes b k e.lockUuid) ||
    e.keys.all fun k => op.takes b k e.lockUuid ||
      !b.locks[k]?.any fun l => l.exclusiveHolders[e.lockUuid]?.isSome

namespace Broker

variable {env : Env} {b b' : Broker} {op : Op} {v : Ledger}

theorem cutsWhole_of_takesWhole (h : op.takesWhole b = true) : b.ledger.CutsWhole (op.cut b) := by
  intro dk e he
  have hwhole := List.all_eq_true.1 h (dk, e) (OrdMap.mem_toList.2 he)
  simp only [Bool.or_eq_true, List.all_eq_true, Bool.not_eq_true'] at hwhole
  refine hwhole.imp (fun hnone k hk s hs => ?_) fun hall k hk s hs => ?_
  · rw [← Bool.not_eq_true]
    exact fun ht => absurd ((hnone k hk).symm.trans (Op.takes_iff.2 ⟨s, hs, ht⟩)) nofun
  · rcases hall k hk with ht | hnot
    · obtain ⟨s', hs', ht⟩ := Op.takes_iff.1 ht
      obtain rfl := Option.some.inj (hs.symm.trans hs')
      exact ht
    · obtain ⟨l, hl, hst⟩ := Option.bind_eq_some_iff.1 hs
      obtain ⟨holder, hh, _⟩ := Option.map_eq_some_iff.1 hst
      rw [hl, Option.any_some, hh] at hnot
      cases hnot

theorem cutsWhole_of_registered (hd : b.ledger.Dated) (hb : b.ledger.Agrees env) (h : op.dropsRegistered b = true) :
    b.ledger.CutsWhole (op.cut b) := by
  obtain ⟨client, handle, hh, hcut⟩ := Op.dropsRegistered_cut h
  rw [hcut]
  exact hd.cutsWhole hb hh

theorem Opens.dated (h : b.Opens op v) (hone : b.ledger.OneDue) (hd : b.ledger.Dated)
    (hw : b.ledger.CutsWhole (op.cut b)) : v.Dated := by
  intro dk e he
  have he₀ := h.rest.1 dk e he
  obtain ⟨hkind, heven⟩ := hd dk e he₀
  refine ⟨hkind, fun k hk s₁ hs₁ k' hk' => ?_⟩
  obtain ⟨s, hs, hleft, hlike, _⟩ := h.stake_left hs₁
  -- this key was not taken, so none was
  have hnone := (hw dk e he₀).resolve_right fun hall => absurd (hleft.symm.trans (hall k hk s hs)) nofun
  obtain ⟨s', hs', hkept⟩ := heven k hk s hs k' hk'
  rcases h.stake_stays hs' (hnone k' hk' s' hs') with ⟨s₂, hs₂, hlike'⟩ | ⟨dk', e', _, hd', hu, hgone, _⟩
  · exact ⟨s₂, hs₂, by rw [hlike'.1, hkept, hlike.1]⟩
  · -- a deadline that has passed is not this one
    rw [hone dk' dk e' e hd' he₀ hu, he] at hgone
    cases hgone

theorem dated_install {other : Broker} {now : Instant} (hs : other.Sane) (ho : other.ledger.Dated)
    (hi : b.installRaftSnapshot env (other.snapshotForRaft now) = .ok b') : b'.ledger.Dated := by
  have hlocks := (installBrokerRaftSnapshot_locks (installRaftSnapshot_ok hi).2).1
  intro dk e he
  obtain ⟨dk₀, e₀, he₀, hu, hk, hkind, _⟩ := (sheds_install hs hi).due he
  obtain ⟨hkind₀, heven⟩ := ho dk₀ e₀ he₀
  unfold Ledger.Even
  rw [hu, hk, hkind]
  refine ⟨hkind₀, fun k hk s hst k' hk' => ?_⟩
  rw [restore_stake hlocks] at hst
  obtain ⟨s₀, hst₀, rfl⟩ := Option.map_eq_some_iff.1 hst
  obtain ⟨s', hst', hkept⟩ := heven k hk s₀ hst₀ k' hk'
  exact ⟨{ s' with client := snapshotDetachedClient }, by rw [restore_stake hlocks, hst', Option.map_some], hkept⟩

theorem deadlinesWhole_of_dated (h : b.ledger.Dated) : b.DeadlinesWhole := by
  intro dk e he
  obtain ⟨hkind, hall⟩ := h dk e he
  refine ⟨hkind, fun k hk l hl hu k' hk' => ?_⟩
  obtain ⟨holder, hh⟩ := OrdMap.mem_iff_get.1 hu
  have hst : b.ledger.stake k .exclusive e.lockUuid = some ⟨holder.client, holder.kept, holder.fencingToken⟩ := by
    show b.locks.stakeAt k .exclusive e.lockUuid = _
    simp [LockTable.stakeAt, LockState.stake, hl, hh]
  obtain ⟨s', hst', _⟩ := hall k hk _ hst k' hk'
  obtain ⟨l', hl', hst'⟩ := Option.bind_eq_some_iff.1 hst'
  obtain ⟨holder', hh', _⟩ := Option.map_eq_some_iff.1 hst'
  exact ⟨l', hl', OrdMap.mem_iff_get.2 ⟨holder', hh'⟩⟩

end Broker

/-! ## Names -/

/-- A waiter comes back with its names. -/
theorem PendingRequest.Named.restored {p : PendingRequest} (h : p.Named) : p.restored.Named :=
  ⟨h.requestUuid, h.grantLockUuid, h.composite⟩

theorem LockState.Named.restore {l : LockState} (h : l.Named) (key : String) (cap : Nat) (now : Instant) :
    ((l.snapshot key).restore cap now).Named where
  exclusive u hu := by
    rw [restore_exclusiveHolders, Std.ExtTreeMap.mem_map] at hu
    exact h.exclusive u hu
  readers u hu := by
    rw [restore_readers, Std.ExtTreeMap.mem_map] at hu
    exact h.readers u hu
  writer w hw := by
    rw [restore_writer] at hw
    obtain ⟨w', hw', rfl⟩ := Option.map_eq_some_iff.1 hw
    exact h.writer w' hw'
  waiters e he := by
    obtain ⟨e', he', rfl⟩ := mem_restore_queue he
    exact (h.waiters e' he').restored

namespace Broker

variable {env : Env} {b b' : Broker}

theorem named_install {other : Broker} {now : Instant} (ho : other.locks.Named)
    (hi : b.installRaftSnapshot env (other.snapshotForRaft now) = .ok b') : b'.locks.Named := by
  intro key l hl
  rw [(installBrokerRaftSnapshot_locks (installRaftSnapshot_ok hi).2).1, Std.ExtTreeMap.getElem?_map] at hl
  obtain ⟨l₀, hl₀, rfl⟩ := Option.map_eq_some_iff.1 hl
  exact ⟨(ho key l₀ hl₀).1, (ho key l₀ hl₀).2.restore key _ _⟩

/-! ## Installing -/

theorem installDeadlines_ok {now' : Instant} : ∀ (ds : List BrokerRaftDeadlineSnapshot) (next : Broker),
    (∀ d ∈ ds, next.snapshotDeadlineMatchesState d = true) →
    ∃ next', ds.foldlM (installDeadline env now') next = .ok next'
  | [], next, _ => ⟨next, rfl⟩
  | d :: ds, next, h => by
    rw [List.foldlM_cons]
    cases hd : installDeadline env now' next d with
    | error e =>
      unfold installDeadline at hd
      rw [h d List.mem_cons_self] at hd
      cases hd
    | ok mid =>
      have hmid := (installDeadline_eq hd).2
      refine installDeadlines_ok ds mid fun d' hd' => ?_
      rw [hmid]
      exact h d' (List.mem_cons_of_mem _ hd')

/-- The snapshot of a broker whose deadlines are whole goes in anywhere. -/
theorem DeadlinesWhole.installs (h : b.DeadlinesWhole) (now : Instant) (env' : Env) (target : Broker) :
    ∃ b', target.installBrokerRaftSnapshot env' (b.snapshotForRaft now) = .ok b' := by
  rw [installBrokerRaftSnapshot_eq]
  refine installDeadlines_ok _ _ fun d hd => ?_
  obtain ⟨hkind, _, hall⟩ := h.exported hd
  unfold snapshotDeadlineMatchesState
  refine List.all_eq_true.2 fun k hk => ?_
  obtain ⟨l, hl, hu⟩ := hall k hk
  rw [installLocks_map, Std.ExtTreeMap.getElem?_map, hl, hkind]
  simpa [LockState.containsUuidForKind, LockState.restore_exclusiveHolders] using hu

/-- What makes the broker's snapshots acceptable. -/
structure Exportable (env : Env) (b : Broker) : Prop where
  ordered : b.ledger.Ordered env
  named : b.locks.Named
  parts : b.ledger.Parts fun p => p.ttl.isSome
  dated : b.ledger.Dated

end Broker

/-- Names are not empty, a uuid the operation prescribes is new, and no lock with
a deadline, or with one to come, loses some of its keys and keeps others (the end
of a registered client never does that). -/
structure Op.KeepsDeadlines (env : Env) (b : Broker) (op : Op) : Prop where
  named : op.Named
  prescribed : op.PrescribesNew env b
  whole : op.dropsRegistered b = true ∨
    op.sparesParts b (fun p => p.ttl.isSome) = true ∧ op.takesWhole b = true

namespace Broker.Exportable

variable {env : Env} {b : Broker}

theorem new (cfg : BrokerConfig) : (Broker.new cfg).Exportable env where
  ordered := ordered_new cfg
  named key l hl := by simp [Broker.new, BrokerState.new] at hl
  parts q x p c hw := by simp [Ledger.Waits] at hw
  dated dk e he := by simp at he

theorem apply (h : b.Exportable env) (hinj : Function.Injective env.newV4) (hb : b.Sane) {op : Op}
    (hop : op.KeepsDeadlines env b) : (b.apply env op).Exportable env := by
  obtain ⟨v₁, v₂, ho, he, hc⟩ := apply_turns env hb op
  have hnew := ho.prescribesNew hop.prescribed
  -- the release
  have ho₁ := ho.ordered h.ordered
  have hp₁ : v₁.Parts fun p => p.ttl.isSome :=
    ho.parts h.ordered h.parts (hop.whole.elim (sparesParts_of_registered h.ordered.reserves) And.left)
  have hd₁ : v₁.Dated := ho.dated h.ordered.reserves.one h.dated
    (hop.whole.elim (cutsWhole_of_registered h.dated h.ordered.agrees) fun hw => cutsWhole_of_takesWhole hw.2)
  -- the request that comes in, and what follows
  obtain ⟨hordered, hparts, hdated⟩ := hc.keeps (I := fun v => v.Parts (fun p => p.ttl.isSome) ∧ v.Dated) hinj
    (fun hg hv hi => ⟨hg.parts (fun _ _ => rfl) hv hi.1, hg.dated hv hi.1 hi.2⟩) (he.ordered hinj ho₁ hnew)
    ⟨he.parts ho₁.agrees hnew hp₁, he.dated ho₁.agrees hnew hd₁⟩
  exact ⟨hordered, named_apply h.named hop.named, hparts, hdated⟩

end Broker.Exportable

/-- **Every snapshot the broker takes can be installed**: in every run whose
requests have non-empty keys and uuids and whose operations take of a lock with a
deadline all the keys or none, the validator accepts the snapshot, and it installs
into any broker. -/
theorem Broker.RunsIn.snapshot_installs {cfg : BrokerConfig} {env : Env} {b : Broker}
    (h : RunsIn cfg (fun env b op => op.KeepsDeadlines env b) Broker.Fits env b) (now : Instant) :
    validateBrokerRaftSnapshot (b.snapshotForRaft now) = .ok () ∧
    ∀ (env' : Env) (target : Broker), ∃ b', target.installBrokerRaftSnapshot env' (b.snapshotForRaft now) = .ok b' := by
  have hexport : b.Exportable env := by
    induction h with
    | new => exact .new cfg
    | apply op hop hb ih => exact ih.apply hb.injective (.reachable hb.reachable) hop
    | install now _ ho hfits hi ih ih' =>
      have hs := Sane.reachable ho.reachable
      exact
        { ordered := ordered_install hs ih'.ordered hfits hi
          named := named_install ih'.named hi
          parts := parts_install (fun p => by cases hp : p.ttl <;> simp [PendingRequest.restored,
            BrokerRaftPendingRequestSnapshot.restore, PendingRequest.snapshot, hp]) hs ih'.parts hi
          dated := dated_install hs ih'.dated hi }
  have hwhole := deadlinesWhole_of_dated hexport.dated
  exact ⟨validateBrokerRaftSnapshot_ok (.reachable h.reachable) hexport.named hwhole now, hwhole.installs now⟩

/-- A composite lock with a TTL is held, and another client waits for one of its
keys. -/
theorem Broker.RunsIn.snapshot_installs_with_deadline :
    ((Sample.after [Sample.ask 1 (Sample.lockAllFor "r" ["a", "b"] 5000), Sample.ask 2 (Sample.lock "s" "a")]).snapshotForRaft
      0).deadlines = [⟨"u", ["a", "b"], .exclusive, 5000⟩] ∧
    validateBrokerRaftSnapshot ((Sample.after [Sample.ask 1 (Sample.lockAllFor "r" ["a", "b"] 5000),
      Sample.ask 2 (Sample.lock "s" "a")]).snapshotForRaft 0) = .ok () := by
  have hmeets : Runs.Meets (fun env b op => op.KeepsDeadlines env b) Sample.env (Broker.new Sample.config)
      [Sample.ask 1 (Sample.lockAllFor "r" ["a", "b"] 5000), Sample.ask 2 (Sample.lock "s" "a")] := by
    refine ⟨⟨?_, ?_, .inr ?_⟩, ⟨?_, ?_, .inr ?_⟩, trivial⟩
    · exact ⟨by decide, by decide, nofun⟩
    · exact fun _ h => nomatch h
    · exact ⟨by decide +kernel, by decide +kernel⟩
    · exact ⟨by decide, by decide, nofun⟩
    · exact fun _ h => nomatch h
    · exact ⟨by decide +kernel, by decide +kernel⟩
  exact ⟨by decide +kernel,
    (snapshot_installs (applyAll _ (.new Sample.env Sample.newV4_injective) hmeets) 0).1⟩

/-- The client gives back one key of its composite lock: the deadline is exported,
because the other key is held, and refused, because this one is not. -/
theorem Broker.snapshot_refused_after_partial_unlock :
    validateBrokerRaftSnapshot ((Sample.after [Sample.ask 1 (Sample.lockAllFor "r" ["a", "b"] 5000),
      Sample.ask 1 (Sample.unlock "s" "a" "u")]).snapshotForRaft 0) =
    .error "broker snapshot deadline for `u` does not match restored holder state" := by
  decide +kernel

end LiveMutex
