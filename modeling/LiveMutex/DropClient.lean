/-
What a client that goes leaves behind. `drop_client` does not look at the holders: it
takes what the client's handle notes. So the handle of a registered client must note
every request of the client that waits and every lock it holds.

An unlock that names some keys of a lock and not the others takes the note away and
leaves holds; while unlocks take the whole of a client's lock, and an id is not given
out under which something is still held or waited for, the notes are complete.
-/
import LiveMutex.Consistent
import LiveMutex.Sample

namespace LiveMutex

namespace Ledger

variable {v v' : Ledger} {env : Env} {ds ds' : List (ClientId × String)} {c : ClientId}

/-- Every handle notes what waits for its client and what its client holds, but for
holds that outlive it and those that were detached from it (`ds`). -/
structure Tracked (ds : List (ClientId × String)) (v : Ledger) : Prop where
  pending {c : ClientId} {h : ClientHandle} {k x : String} {p : PendingRequest} : v.handle c = some h → v.Waits k x p →
    p.client = c → (k, x) ∈ h.pendingRequestUuids
  held {c : ClientId} {h : ClientHandle} {k u : String} {kind : RwHoldKind} {s : Stake} : v.handle c = some h →
    v.stake k kind u = some s → s.client = c → s.kept = false →
    (c, u) ∈ ds ∨ ∃ ko, h.heldLockUuids[u]? = some ko ∧ k ∈ ko.keys ∧ kind = ko.rwKind

/-! ## Entries go -/

/-- Entries go, and a handle forgets a lock only when its client has no more of it. -/
theorem Tracked.sheds (hv : v.Tracked ds) (hds : ∀ d ∈ ds, d ∈ ds') (hq : ∀ {k x p}, v'.Waits k x p → v.Waits k x p)
    (hst : ∀ {k kind u s}, v'.stake k kind u = some s → v.stake k kind u = some s ∨ s.client = snapshotDetachedClient)
    (hz : v'.handle snapshotDetachedClient = none)
    (hh : ∀ {a h'}, v'.handle a = some h' → ∃ h, v.handle a = some h ∧ h'.pendingRequestUuids = h.pendingRequestUuids ∧
      ∀ u : String, h'.heldLockUuids[u]? = h.heldLockUuids[u]? ∨ (a, u) ∈ ds' ∨
        ∀ k kind s, v'.stake k kind u = some s → s.client ≠ a) : v'.Tracked ds' where
  pending hc hw hp := by
    obtain ⟨h, hh, hpend, _⟩ := hh hc
    rw [hpend]
    exact hv.pending hh (hq hw) hp
  held {c h' k u kind s} hc hs hcl hkept := by
    obtain ⟨h, hh, _, hheld⟩ := hh hc
    rcases hst hs with hs₀ | hzero
    · rcases hheld u with hsame | hd | hnone
      · rw [hsame]
        exact (hv.held hh hs₀ hcl hkept).imp_left (hds _)
      · exact .inl hd
      · exact absurd hcl (hnone k kind s hs)
    · rw [hcl.symm.trans hzero, hz] at hc
      cases hc

/-- Handles stay as they are, for those whose handle stays. -/
theorem Tracked.keep (hv : v.Tracked ds) (hq : ∀ {k x p}, v'.Waits k x p → v.Waits k x p)
    (hst : ∀ {k kind u s}, v'.stake k kind u = some s → v.stake k kind u = some s)
    (hh : ∀ {a h}, v'.handle a = some h → v.handle a = some h) : v'.Tracked ds where
  pending hc hw hp := hv.pending (hh hc) (hq hw) hp
  held hc hs hcl hkept := hv.held (hh hc) (hst hs) hcl hkept

/-- Of every lock it touches, a cut takes all the client has. -/
def Cut.Whole (v : Ledger) (a : Cut) : Prop :=
  ∀ {k k' u kind kind' s s'}, v.stake k kind u = some s → v.stake k' kind' u = some s' → s.client = s'.client →
    a.stake k kind u s = true → a.stake k' kind' u s' = true

theorem Tracked.released {a : Cut} (hv : v.Tracked ds) (hz : v.handle snapshotDetachedClient = none)
    (h : v.Released a v') (ha : Cut.Whole v a) : v'.Tracked ds := by
  obtain ⟨hs, hf, rfl⟩ := h
  have hz' : hs snapshotDetachedClient = none :=
    (hf snapshotDetachedClient).elim And.right fun ⟨_, _, hh, _⟩ => by cases hz.symm.trans hh
  refine hv.sheds (fun _ h => h) (fun hw => (waits_cut.1 hw).1) (fun hs => .inl (stake_of_cut.1 hs).1) hz'
    fun {c h'} hc => ?_
  rcases hf c with ⟨_, hn⟩ | ⟨h, held, hh, he, hheld⟩
  · cases hn.symm.trans hc
  · obtain rfl := Option.some.inj (he.symm.trans hc)
    refine ⟨h, hh, rfl, fun u => (hheld u).imp_right fun hgone => .inr fun k kind s hst hcl => ?_⟩
    -- the client lost a part of the lock, so it lost all of it
    obtain ⟨_, k₀, kind₀, s₀, hs₀, hcl₀, hcut⟩ := hgone
    obtain ⟨hst, hstay⟩ := stake_of_cut.1 hst
    rw [ha hs₀ hst (hcl₀.trans hcl.symm) hcut] at hstay
    cases hstay

theorem Tracked.expires {now : Instant} (hv : v.Tracked ds) (hb : v.Consistent env) (h : v.Expires now v') :
    v'.Tracked ds := by
  rcases h with ⟨_, _, rfl⟩ | @⟨dk, e, hd, _, rfl⟩
  · exact hv.keep id id id
  · refine hv.sheds (fun _ h => h) (fun hw => (waits_cut.1 hw).1) (fun hs => .inl (stake_of_cut.1 hs).1)
      (note_handle_none hb.zero) fun {c h'} hc => ?_
    rcases handle_of_note hc with hold | ⟨rfl, h, hold, rfl⟩
    · exact ⟨h', hold, rfl, fun _ => .inl rfl⟩
    · refine ⟨h, hold, rfl, fun u => ?_⟩
      change (h.heldLockUuids.erase e.lockUuid)[u]? = _ ∨ _
      rw [OrdMap.get_erase]
      split
      · -- the deadline has all the keys of its lock
        rename_i hu
        subst hu
        refine .inr (.inr fun k kind s hs => ?_)
        obtain ⟨hs, hstay⟩ := stake_of_cut.1 hs
        obtain ⟨hk, hkind, _⟩ := hb.fits (.deadline hd rfl) hs
        exact absurd ⟨hk, hkind, rfl⟩ (of_decide_eq_false hstay)
      · exact .inl rfl

theorem Tracked.detached {u : String} (hv : v.Tracked ds) (hz : v.handle snapshotDetachedClient = none)
    (h : v.Detached u v') : v'.Tracked ds := by
  have hz' : v'.handle snapshotDetachedClient = none :=
    (h.handle snapshotDetachedClient).elim (fun he => he.trans hz) fun ⟨_, _, hh, _⟩ => by cases hz.symm.trans hh
  have howner : ∀ {k kind s}, v'.stake k kind u = some s → s.client = snapshotDetachedClient := by
    intro k kind s hs
    rw [h.stake, if_pos rfl] at hs
    obtain ⟨_, _, rfl⟩ := Option.map_eq_some_iff.1 hs
    rfl
  refine hv.sheds (fun _ h => h) (fun hw => by rwa [Waits, h.queue] at hw) (fun {k kind w s} hs => ?_) hz'
    fun {c h'} hc => ?_
  · by_cases hw : u = w
    · subst hw
      exact .inr (howner hs)
    · rw [h.stake, if_neg hw] at hs
      exact .inl hs
  · rcases h.handle c with he | ⟨_, handle, hh, he | ⟨he, _⟩⟩
    · exact ⟨h', he ▸ hc, rfl, fun _ => .inl rfl⟩
    · obtain rfl := Option.some.inj (he.symm.trans hc)
      refine ⟨handle, hh, rfl, fun w => ?_⟩
      change (handle.heldLockUuids.erase u)[w]? = _ ∨ _
      rw [OrdMap.get_erase]
      split
      · rename_i hu
        subst hu
        refine .inr (.inr fun k kind s hs hcl => ?_)
        rw [hcl.symm.trans (howner hs), hz'] at hc
        cases hc
      · exact .inl rfl
    · cases he.symm.trans hc

theorem Tracked.drop (hv : v.Tracked ds) (a : ClientId) : (v.drop a).Tracked ds := by
  refine hv.keep (fun hw => (drop_sublist v a _).subset hw) (fun hs => ?_) fun hc => (drop_handle hc).1
  unfold Ledger.drop at hs
  split at hs <;> exact (stake_of_cut.1 hs).1

/-- Nothing waits for the client, and it holds nothing but what outlives it or was detached from it. -/
structure Free (ds : List (ClientId × String)) (c : ClientId) (v : Ledger) : Prop where
  waits : ∀ {k x p}, v.Waits k x p → p.client ≠ c
  holds : ∀ {k kind u s}, v.stake k kind u = some s → s.client = c → s.kept = true ∨ (c, u) ∈ ds

theorem Tracked.register (hv : v.Tracked ds) {a : ClientId} (ha : v.Free ds a) : (v.register a).Tracked ds where
  pending {c h k x p} hc hw hp := by
    change (if a = c then some _ else v.handle c) = some h at hc
    split at hc
    · rename_i hac
      exact absurd (hp.trans hac.symm) (ha.waits hw)
    · exact hv.pending hc hw hp
  held {c h k u kind s} hc hs hcl hkept := by
    change (if a = c then some _ else v.handle c) = some h at hc
    split at hc
    · rename_i hac
      subst hac
      rcases ha.holds hs hcl with hk | hd
      · cases hkept.symm.trans hk
      · exact .inl hd
    · exact hv.held hc hs hcl hkept

/-! ## A lock comes -/

/-- Stakes of one lock are added, and its client's handle notes the lock as a whole. -/
theorem Tracked.held_grow (hv : v.Tracked ds) (hb : v.Consistent env) {u : String} (ko : KeysOfLock)
    (hu : v.Records u c ko ∨ ¬v.Uses u)
    (hst : ∀ {k kind w s}, v'.stake k kind w = some s →
      v.stake k kind w = some s ∨ w = u ∧ k ∈ ko.keys ∧ kind = ko.rwKind ∧ s.client = c)
    (hh : ∀ {a h'}, v'.handle a = some h' → ∃ h, v.handle a = some h ∧
      (a ≠ c ∧ h'.heldLockUuids = h.heldLockUuids ∨ a = c ∧ h'.heldLockUuids = h.heldLockUuids.insert u ko))
    {a : ClientId} {h' : ClientHandle} {k w : String} {kind : RwHoldKind} {s : Stake} (hc : v'.handle a = some h')
    (hs : v'.stake k kind w = some s) (hcl : s.client = a) (hkept : s.kept = false) :
    (a, w) ∈ ds ∨ ∃ ko, h'.heldLockUuids[w]? = some ko ∧ k ∈ ko.keys ∧ kind = ko.rwKind := by
  obtain ⟨h, hhandle, hheld⟩ := hh hc
  rcases hst hs with hold | ⟨rfl, hk, hkind, hsc⟩
  · rcases hheld with ⟨_, he⟩ | ⟨rfl, he⟩
    · rw [he]
      exact hv.held hhandle hold hcl hkept
    · refine (hv.held hhandle hold hcl hkept).imp_right fun ⟨ko', hko', hk', hkind'⟩ => ?_
      rw [he, OrdMap.get_insert]
      by_cases huw : u = w
      · -- the lock is known, so what its client already has of it is among its keys
        subst huw
        rcases hu with hu | hu
        · obtain ⟨hk, hkind, _⟩ := hb.fits hu hold
          exact ⟨ko, if_pos rfl, hk, hkind⟩
        · exact absurd (.inr ⟨k, kind, s, hold⟩) hu
      · exact ⟨ko', (if_neg huw).trans hko', hk', hkind'⟩
  · rcases hheld with ⟨hne, _⟩ | ⟨_, he⟩
    · exact absurd (hcl.symm.trans hsc) hne
    · exact .inr ⟨ko, by rw [he, OrdMap.get_insert, if_pos rfl], hk, hkind⟩

theorem Tracked.hand (hv : v.Tracked ds) (hb : v.Consistent env) (hd : v.Distinct) {key u : String} {token : Nat}
    {p : PendingRequest} {rest : List (String × PendingRequest)} (hq : v.queue key = (p.requestUuid, p) :: rest)
    (hkey : key ∈ (p.wants key).keys) (hu : v.Records u p.client (p.wants key) ∨ ¬v.Uses u) :
    (v.hand key p u token).Tracked ds where
  pending {c h' k x q} hc hw hp := by
    obtain ⟨hw, hne⟩ := (waits_pop hd hq).1 hw
    rcases handle_of_note hc with hold | ⟨rfl, h, hold, rfl⟩
    · exact hv.pending hold hw hp
    · refine List.mem_filter.2 ⟨hv.pending hold hw hp, ?_⟩
      simpa [imp_iff_not_or] using hne
  held := by
    refine hv.held_grow hb (p.wants key) hu (fun {k kind w s} hs => ?_) fun {a h'} hc => ?_
    · change (v.give [key] (p.wants key).rwKind u fun _ => ⟨p.client, p.keeps, token⟩).stake k kind w = some s at hs
      refine (stake_of_give hs).imp_right fun ⟨hw, hk, hkind, he⟩ => ⟨hw, ?_, hkind, he ▸ rfl⟩
      exact List.mem_singleton.1 hk ▸ hkey
    · change (if p.client = a then (v.handle a).map _ else v.handle a) = some h' at hc
      split at hc
      · rename_i hpa
        obtain ⟨h, hh, rfl⟩ := Option.map_eq_some_iff.1 hc
        exact ⟨h, hh, .inr ⟨hpa.symm, rfl⟩⟩
      · rename_i hpa
        exact ⟨h', hc, .inl ⟨Ne.symm hpa, rfl⟩⟩

theorem Tracked.enqueue (hv : v.Tracked ds) (key : String) (p : PendingRequest) (first : Bool) :
    (v.enqueue key p first).Tracked ds where
  pending {c h' k x q} hc hw hp := by
    change (if p.client = c then (v.handle c).map _ else v.handle c) = some h' at hc
    by_cases hpc : p.client = c
    · rw [if_pos hpc] at hc
      obtain ⟨h, hh, rfl⟩ := Option.map_eq_some_iff.1 hc
      rcases waits_of_push hw with hw | ⟨rfl, rfl, _⟩
      · exact List.mem_append_left _ (hv.pending hh hw hp)
      · exact List.mem_append_right _ List.mem_cons_self
    · rw [if_neg hpc] at hc
      rcases waits_of_push hw with hw | ⟨_, _, rfl⟩
      · exact hv.pending hc hw hp
      · exact absurd hp hpc
  held hc hs hcl hkept := by
    rcases handle_of_note hc with hold | ⟨rfl, h, hold, rfl⟩
    · exact hv.held hold hs hcl hkept
    · have hheld := hv.held (h := h) hold hs hcl hkept
      exact hheld

/-- A uuid that is handed out is the waiter's own, or in no use. -/
theorem Consistent.handed (hb : v.Consistent env) {n : Nat} {key u : String} {p : PendingRequest}
    {rest : List (String × PendingRequest)} (hq : v.queue key = (p.requestUuid, p) :: rest)
    (hu : env.Gives p.reserved v.reads n u) : v.Records u p.client (p.wants key) ∨ ¬v.Uses u := by
  rcases hu with hu | ⟨_, i, hlo, _, rfl⟩
  · exact .inl (.waiter (waits_head hq) hu)
  · exact .inr (hb.unused hlo)

theorem Grants.tracked (h : v.Grants env v') (hv : v.Tracked ds) (hb : v.Consistent env) (hd : v.Distinct) :
    v'.Tracked ds := by
  cases h with
  | idle _ h => exact h ▸ hv.keep id id id
  | @serve token key u p rest n a d hq hlast hu _ _ _ h =>
    have hkey : key ∈ (p.wants key).keys := wants_keys fun a ha => by simp [hlast a ha]
    have hhand : (v.hand key p u token).Tracked ds := hv.hand hb hd hq hkey (hb.handed hq hu)
    exact h ▸ hhand.keep id id id
  | @advance token n key next p rest a more hq hp hr _ h =>
    have hres : p.reserved = some a.compositeLockUuid := PendingRequest.reserved_of_composite hp
    have hkey : key ∈ (p.wants key).keys := by simp [PendingRequest.wants, hp, hr]
    have hhand : (v.hand key p a.compositeLockUuid token).Tracked ds :=
      hv.hand hb hd hq hkey (.inl (.waiter (waits_head hq) hres))
    exact h ▸ (hhand.enqueue next _ false).keep id id id

theorem Cascade.tracked (hinj : Function.Injective env.newV4) (h : v.Cascade env v') (hv : v.Tracked ds)
    (hb : v.Consistent env) (hd : v.Distinct) : v'.Tracked ds :=
  (h.inv (I := fun v => v.Tracked ds ∧ v.Consistent env ∧ v.Distinct) ⟨hv, hb, hd⟩ fun hg hi =>
    ⟨hg.tracked hi.1 hi.2.1 hi.2.2, hg.consistent hinj hi.2.1, hi.2.2.grants hg⟩).1

theorem Enters.tracked {op : Op} (h : v.Enters env op v') (hv : v.Tracked ds) (hb : v.Consistent env)
    (hnew : ∀ u, op.given = some u → ¬v.Uses u) : v'.Tracked ds := by
  cases h with
  | still => exact hv
  | @award ko kept token client r overrides u _ d n _ hu =>
    have hunused : ¬v.Uses u := hu.new hnew fun _ => hb.unused
    refine ⟨fun {c h' k x p} hc hw hp => ?_, hv.held_grow (c := client) hb ko (.inr hunused) (fun {k kind w s} hs => ?_)
      fun {a h'} hc => ?_⟩
    · rcases handle_of_note hc with hold | ⟨rfl, h, hold, rfl⟩
      · exact hv.pending hold hw hp
      · have hpending := hv.pending (h := h) hold hw hp
        exact hpending
    · change (v.give ko.keys ko.rwKind u fun k => ⟨client, kept, token k⟩).stake k kind w = some s at hs
      exact (stake_of_give hs).imp_right fun ⟨hw, hk, hkind, he⟩ => ⟨hw, hk, hkind, he ▸ rfl⟩
    · change (if client = a then (v.handle a).map _ else v.handle a) = some h' at hc
      split at hc
      · rename_i hpa
        obtain ⟨h, hh, rfl⟩ := Option.map_eq_some_iff.1 hc
        exact ⟨h, hh, .inr ⟨hpa.symm, rfl⟩⟩
      · rename_i hpa
        exact ⟨h', hc, .inl ⟨Ne.symm hpa, rfl⟩⟩
  | enqueue => exact (hv.enqueue _ _ _).keep id id id

/-! ## A client that has gone -/

/-- While others are granted, nothing comes to a client nobody waits for. -/
theorem Free.grants (hf : v.Free ds c) (h : v.Grants env v') : v'.Free ds c := by
  have hpop : ∀ {key k x p}, (v.pop key).Waits k x p → p.client ≠ c :=
    fun hw => hf.waits ((pop_sublist v _ _).subset hw)
  have hgive : ∀ {key u token} {p : PendingRequest} {rest}, v.queue key = (p.requestUuid, p) :: rest →
      ∀ {k kd w s}, (v.hand key p u token).stake k kd w = some s → s.client = c → s.kept = true ∨ (c, w) ∈ ds := by
    intro key u token p rest hq k kd w s hs hc
    change (v.give [key] (p.wants key).rwKind u fun _ => ⟨p.client, p.keeps, token⟩).stake k kd w = some s at hs
    rcases stake_of_give hs with hs | ⟨_, _, _, rfl⟩
    · exact hf.holds hs hc
    · exact absurd hc (hf.waits (waits_head hq))
  cases h with
  | idle _ h => exact h ▸ ⟨hf.waits, hf.holds⟩
  | serve token hq _ _ _ _ _ h => exact h ▸ ⟨hpop, hgive hq⟩
  | @advance token n key next p rest a more hq _ _ _ h =>
    refine h ▸ ⟨fun hw => ?_, hgive hq⟩
    rcases waits_of_push hw with hw | ⟨_, _, rfl⟩
    · exact hpop hw
    · have hne := hf.waits (waits_head hq)
      exact hne

theorem Free.cascade (hf : v.Free ds c) (h : v.Cascade env v') : v'.Free ds c := h.inv hf fun hg hf => hf.grants hg

/-- A registered client goes, and nothing of it is left. -/
theorem Tracked.free {h : ClientHandle} (hv : v.Tracked ds) (hc : v.handle c = some h) : (v.drop c).Free ds c := by
  have hdrop : v.drop c = (v.expel c).cut h.cut := by simp only [Ledger.drop, hc]
  rw [hdrop]
  constructor
  · intro k x p hw hp
    obtain ⟨hw, hcut⟩ := waits_cut.1 hw
    exact absurd (hv.pending hc hw hp) (of_decide_eq_false hcut)
  · intro k kind u s hs hsc
    obtain ⟨hs, hcut⟩ := stake_of_cut.1 hs
    cases hkept : s.kept with
    | true => exact .inl rfl
    | false =>
      refine .inr ((hv.held hc hs hsc hkept).resolve_right fun ⟨ko, hko, hk, hkind⟩ => ?_)
      simp [ClientHandle.cut, hko, hk, hkind, hkept] at hcut

end Ledger

/-! ## Operations -/

namespace Op

/-- The lock an operation detaches from a client. -/
def detaches : Op → List (ClientId × String)
  | .detachLockFromClient client u => [(client, u)]
  | _ => []

/-- A request takes of every lock it touches all that a client has of it, and an id is
given out only when nothing waits for it and it holds nothing, but for what outlives
its owner or was detached. -/
def Tidy (ds : List (ClientId × String)) (b : Broker) : Op → Prop
  | .request client r _ => Ledger.Cut.Whole b.ledger (b.ledger.requestCut client r)
  | .registerClient => b.ledger.Free ds (b.nextAvailableClientId b.nextClientId)
  | .registerClientWithId id => b.ledger.Free ds (b.nextAvailableClientId id)
  | _ => True

end Op

namespace Broker

variable {env : Env} {b b' : Broker} {op : Op} {ds : List (ClientId × String)}

theorem Opens.tracked {v : Ledger} (h : b.Opens op v) (ht : b.ledger.Tracked ds) (hb : b.ledger.Consistent env)
    (hop : op.Tidy ds b) : v.Tracked (op.detaches ++ ds) := by
  cases op with
  | registerClient => exact h ▸ ht.register hop
  | registerClientWithId id => exact h ▸ ht.register hop
  | request client r overrides => exact ht.released hb.zero h hop
  | dropClient client => exact h ▸ ht.drop client
  | detachLockFromClient client u =>
    subst h
    refine ht.sheds (fun _ h => List.mem_cons_of_mem _ h) id .inl (Ledger.note_handle_none hb.zero) fun {a h'} hc => ?_
    rcases Ledger.handle_of_note hc with hold | ⟨rfl, h, hold, rfl⟩
    · exact ⟨h', hold, rfl, fun _ => .inl rfl⟩
    · refine ⟨h, hold, rfl, fun w => ?_⟩
      change (h.heldLockUuids.erase u)[w]? = _ ∨ _
      rw [OrdMap.get_erase]
      split
      · rename_i hu
        exact .inr (.inl (hu ▸ List.mem_cons_self))
      · exact .inl rfl
  | detachLockOwner u => exact ht.detached hb.zero h
  | tickTtl now =>
    induction h with
    | refl => exact ht
    | tail hrun he ih =>
      -- up to here the sweep is one that ends here
      have hopens : b.Opens (.tickTtl now) _ := hrun
      exact ih.expires (hb.sheds hopens.sheds hopens.reads.ge) he

theorem Opens.distinct {v : Ledger} (h : b.Opens op v) : v.Distinct := b.ledger_distinct.sub h.queue_sublist

theorem apply_tracked (hinj : Function.Injective env.newV4) (hs : b.Sane) (hb : b.ledger.Consistent env)
    (ht : b.ledger.Tracked ds) (hop : op.Tidy ds b) (hnew : op.PrescribesUnused env b) :
    (b.apply env op).ledger.Tracked (op.detaches ++ ds) := by
  obtain ⟨v₁, v₂, ho, he, hc⟩ := apply_turns env hs op
  have hb₁ : v₁.Consistent env := hb.sheds ho.sheds ho.reads.ge
  have hnew₁ := ho.prescribed ho.sheds.uses hnew
  exact hc.tracked hinj (he.tracked (ho.tracked ht hb hop) hb₁ fun u hu => (hnew₁ u hu).1)
    (he.consistent hinj hb₁ hnew₁) (ho.distinct.enters he)

/-- The states of a broker in one place all of whose operations are tidy, with the
locks that were detached from their clients on the way. -/
inductive TidyRun (cfg : BrokerConfig) : Env → List (ClientId × String) → Broker → Prop
  | new (env : Env) (hinj : Function.Injective env.newV4) : TidyRun cfg env [] (Broker.new cfg)
  | apply {env : Env} {ds : List (ClientId × String)} {b : Broker} (op : Op) (hnew : op.PrescribesUnused env b)
      (htidy : op.Tidy ds b) (h : TidyRun cfg env ds b) : TidyRun cfg env (op.detaches ++ ds) (b.apply env op)
  | install {env env' : Env} {ds ds' : List (ClientId × String)} {b other b' : Broker} (now : Instant)
      (h : TidyRun cfg env ds b) (ho : TidyRun cfg env' ds' other) (hfits : b.Apart env other)
      (hi : b.installRaftSnapshot env (other.snapshotForRaft now) = .ok b') : TidyRun cfg env ds b'

namespace TidyRun

variable {cfg : BrokerConfig}

theorem runsIn (h : TidyRun cfg env ds b) : RunsIn cfg (fun env b op => op.PrescribesUnused env b) Apart env b := by
  induction h with
  | new env hinj => exact .new env hinj
  | apply op hnew _ _ ih => exact .apply op hnew ih
  | install now _ _ hfits hi ih ih' => exact .install now ih ih' hfits hi

theorem tracked (h : TidyRun cfg env ds b) : b.ledger.Tracked ds := by
  induction h with
  | new env _ =>
    have hnone : ∀ c, (Broker.new cfg).ledger.handle c = none := fun c => by simp
    exact ⟨fun hc => (Option.some_ne_none _ (hc.symm.trans (hnone _))).elim,
      fun hc => (Option.some_ne_none _ (hc.symm.trans (hnone _))).elim⟩
  | apply op hnew htidy h ih =>
    exact apply_tracked h.runsIn.injective (.reachable h.runsIn.reachable) h.runsIn.consistent ih htidy hnew
  | @install _ _ _ _ _ _ b' now _ _ _ hi _ _ =>
    have hnone : ∀ c, b'.ledger.handle c = none := by
      intro c
      show b'.clients[c]? = none
      rw [install_clients hi]
      simp
    exact ⟨fun hc => (Option.some_ne_none _ (hc.symm.trans (hnone _))).elim,
      fun hc => (Option.some_ne_none _ (hc.symm.trans (hnone _))).elim⟩

/-- **A client that goes leaves nothing behind**, when unlocks take whole locks and ids
are given out clean: no request of it waits, and it holds nothing but exclusive locks
that outlive it and locks that were detached from it. -/
theorem dropClient_releases {c : ClientId} {handle : ClientHandle} (h : TidyRun cfg env ds b)
    (hc : b.clients[c]? = some handle) :
    (∀ k x p, (b.apply env (.dropClient c)).locks.Waits k x p → p.client ≠ c) ∧
    ∀ k kind u s, (b.apply env (.dropClient c)).ledger.stake k kind u = some s → s.client = c →
      s.kept = true ∨ (c, u) ∈ ds := by
  obtain ⟨v₁, v₂, ho, he, hcascade⟩ := apply_turns env (.reachable h.runsIn.reachable) (.dropClient c)
  obtain rfl : v₁ = b.ledger.drop c := ho
  cases he with
  | still _ =>
    have hfree := (h.tracked.free hc).cascade hcascade
    exact ⟨fun k x p hw => hfree.waits (ledger_waits.2 hw), fun k kind u s hs hsc => hfree.holds hs hsc⟩

/-- A client registers, locks a key, asks for it again and goes. -/
theorem dropClient_releases_lock :
    (∀ k x p, (Sample.after [.registerClient, Sample.ask 1 (Sample.lock "r" "k"), Sample.ask 1 (Sample.lock "s" "k"),
      .dropClient 1]).locks.Waits k x p → p.client ≠ 1) ∧
    ∀ k kind u s, (Sample.after [.registerClient, Sample.ask 1 (Sample.lock "r" "k"), Sample.ask 1 (Sample.lock "s" "k"),
      .dropClient 1]).ledger.stake k kind u = some s → s.client = 1 → s.kept = true ∨ (1, u) ∈ [] := by
  have hfree : ∀ c, (Broker.new Sample.config).ledger.Free [] c := fun c =>
    ⟨fun hw => by simp [Ledger.Waits] at hw,
      fun hs => by simp at hs⟩
  have hrun : TidyRun Sample.config Sample.env [] (Sample.after [.registerClient, Sample.ask 1 (Sample.lock "r" "k"),
      Sample.ask 1 (Sample.lock "s" "k")]) :=
    .apply (Sample.ask 1 (Sample.lock "s" "k")) (.of_none rfl) (fun _ _ _ h => by cases h)
      (.apply (Sample.ask 1 (Sample.lock "r" "k")) (.of_none rfl) (fun _ _ _ h => by cases h)
        (.apply .registerClient (.of_none rfl) (hfree _) (.new Sample.env Sample.newV4_injective)))
  have hclient : (Sample.after [.registerClient, Sample.ask 1 (Sample.lock "r" "k"),
      Sample.ask 1 (Sample.lock "s" "k")]).clients.contains 1 = true := by decide +kernel
  obtain ⟨handle, hh⟩ := OrdMap.mem_iff_get.1 (Std.ExtTreeMap.contains_iff_mem.1 hclient)
  exact hrun.dropClient_releases hh

end TidyRun

/-- A client has a lock on two keys, unlocks one of them and goes: it holds the other for ever. -/
theorem dropClient_leaves_member :
    Reachable Sample.config (Sample.after [.registerClient, Sample.ask 1 (Sample.lockAll "r" ["a", "b"]),
      Sample.ask 1 (Sample.unlock "s" "a" "u")]) ∧
    (Sample.after [.registerClient, Sample.ask 1 (Sample.lockAll "r" ["a", "b"]),
      Sample.ask 1 (Sample.unlock "s" "a" "u")]).clients.contains 1 = true ∧
    ((Sample.after [.registerClient, Sample.ask 1 (Sample.lockAll "r" ["a", "b"]),
      Sample.ask 1 (Sample.unlock "s" "a" "u")]).apply Sample.env (.dropClient 1)).ledger.stake "b" .exclusive "u" =
        some ⟨1, false, 1⟩ :=
  ⟨Sample.reachable_after _, by decide +kernel, by decide +kernel⟩

end Broker

/-! ## Only its own -/

/-- What the strip takes from the key is all the client's. -/
structure Strip.Own (client : ClientId) (l : LockState) (s : Strip) : Prop where
  waiter : ∀ e ∈ l.queue.entries, s.waiter e.1 e.2 = true → e.2.client = client
  exclusive : ∀ (u : String) h, l.exclusiveHolders[u]? = some h → s.exclusive u h = true → h.client = client
  reader : ∀ (u : String) h, l.readers[u]? = some h → s.reader u h = true → h.client = client
  writer : ∀ w, l.writer = some w → s.writer w = true → w.client = client

/-- What one strip takes, another with the same effect takes too. -/
theorem Strip.Own.congr {client : ClientId} {l : LockState} {s t : Strip} (h : s.Own client l)
    (heq : l.strip s = l.strip t) : t.Own client l where
  waiter e he ht := by
    by_cases hs : s.waiter e.1 e.2 = true
    · exact h.waiter e he hs
    · have hmem : e ∈ (l.strip s).queue.entries := List.mem_filter.2 ⟨he, by simpa using hs⟩
      rw [heq] at hmem
      have hstay : (!t.waiter e.1 e.2) = true := (List.mem_filter.1 hmem).2
      rw [ht] at hstay
      cases hstay
  exclusive u holder hu ht := by
    by_cases hs : s.exclusive u holder = true
    · exact h.exclusive u holder hu hs
    · have hget : (l.strip s).exclusiveHolders[u]? = some holder := by
        rw [LockState.strip_exclusiveHolders, hu]
        simp [Option.filter, hs]
      rw [heq, LockState.strip_exclusiveHolders, hu] at hget
      simp [Option.filter, ht] at hget
  reader u holder hu ht := by
    by_cases hs : s.reader u holder = true
    · exact h.reader u holder hu hs
    · have hget : (l.strip s).readers[u]? = some holder := by
        rw [LockState.strip_readers, hu]
        simp [Option.filter, hs]
      rw [heq, LockState.strip_readers, hu] at hget
      simp [Option.filter, ht] at hget
  writer w hw ht := by
    by_cases hs : s.writer w = true
    · exact h.writer w hw hs
    · have hget : (l.strip s).writer = some w := by simp [LockState.strip, hw, Option.filter, hs]
      rw [heq] at hget
      simp [LockState.strip, hw, Option.filter, ht] at hget

namespace Broker

/-- `drop_client` up to waking the waiters. -/
def dropRelease (env : Env) (b : Broker) (client : ClientId) : Dropping :=
  match b.clients[client]? with
  | none => b.dropUnregistered env client
  | some handle => b.dropRegistered env client handle

/-- `drop_client` takes requests and holders of the client away, and nothing else; after that, only waiters are
granted. -/
structure DropsOwn (env : Env) (b : Broker) (client : ClientId) : Prop where
  removes : ∃ f : String → Strip, (∀ k l, b.locks[k]? = some l → (f k).Own client l) ∧
    (b.dropRelease env client).broker.locks = b.locks.strip f
  grants : (b.dropRelease env client).broker.Does env none Action.Cascade (b.dropClient env client)

/-- What the handle of the client notes is the client's: no request of another client waits, and no other client
holds, under a key and uuid noted there; an exclusive hold that outlives its client apart. -/
structure NotesOwn (b : Broker) (client : ClientId) (handle : ClientHandle) : Prop where
  pending : ∀ k x p, (k, x) ∈ handle.pendingRequestUuids → b.locks.Waits k x p → p.client = client
  held : ∀ (u k : String) ko l s, handle.heldLockUuids[u]? = some ko → k ∈ ko.keys → b.locks[k]? = some l →
    l.stake ko.rwKind u = some s → s.kept = false → s.client = client

variable {env : Env} {b : Broker} {client : ClientId}

theorem NotesOwn.strip_own {handle : ClientHandle} (h : b.NotesOwn client handle) {k : String} {l : LockState}
    (hl : b.locks[k]? = some l) : (handle.strip k).Own client l where
  waiter e he hs := h.pending k e.1 e.2 (by simpa [ClientHandle.strip] using hs) ⟨l, hl, he⟩
  exclusive u holder hu hs := by
    simp only [ClientHandle.strip, Bool.and_eq_true, Option.any_eq_true, decide_eq_true_eq,
      Bool.not_eq_true'] at hs
    obtain ⟨⟨ko, hko, hkind, hk⟩, hkept⟩ := hs
    exact h.held u k ko l ⟨holder.client, holder.kept, holder.fencingToken⟩ hko hk hl
      (by simp [LockState.stake, hkind, hu]) hkept
  reader u holder hu hs := by
    simp only [ClientHandle.strip, Option.any_eq_true, decide_eq_true_eq] at hs
    obtain ⟨ko, hko, hkind, hk⟩ := hs
    exact h.held u k ko l ⟨holder.client, false, holder.fencingToken⟩ hko hk hl
      (by simp [LockState.stake, hkind, hu]) rfl
  writer w hw hs := by
    simp only [ClientHandle.strip, Option.any_eq_true, decide_eq_true_eq] at hs
    obtain ⟨ko, hko, hkind, hk⟩ := hs
    exact h.held w.lockUuid k ko l ⟨w.client, false, w.fencingToken⟩ hko hk hl
      (by simp [LockState.stake, hkind, hw]) rfl

theorem NotesOwn.of_strip {handle : ClientHandle}
    (h : ∀ k l, b.locks[k]? = some l → (handle.strip k).Own client l) : b.NotesOwn client handle where
  pending k x p hm hw := by
    obtain ⟨l, hl, hmem⟩ := hw
    exact (h k l hl).waiter (x, p) hmem (by simpa [ClientHandle.strip] using hm)
  held u k ko l s hko hk hl hs hkept := by
    cases hkind : ko.rwKind with
    | exclusive =>
      rw [hkind] at hs
      obtain ⟨holder, hu, rfl⟩ := Option.map_eq_some_iff.1 hs
      exact (h k l hl).exclusive u holder hu (by simpa [ClientHandle.strip, hko, hkind, hk] using hkept)
    | read =>
      rw [hkind] at hs
      obtain ⟨holder, hu, rfl⟩ := Option.map_eq_some_iff.1 hs
      exact (h k l hl).reader u holder hu (by simp [ClientHandle.strip, hko, hkind, hk])
    | write =>
      rw [hkind] at hs
      obtain ⟨w, hw, rfl⟩ := Option.map_eq_some_iff.1 hs
      obtain ⟨hw, hu⟩ := Option.filter_eq_some_iff.1 hw
      have hu : w.lockUuid = u := by simpa using hu
      exact (h k l hl).writer w hw (by simp [ClientHandle.strip, hu, hko, hkind, hk])

theorem strip_client_own (client : ClientId) (l : LockState) : (Strip.client client).Own client l where
  waiter _ _ hs := by simpa [Strip.client] using hs
  exclusive _ _ _ hs := by simpa [Strip.client] using hs
  reader _ _ _ hs := by simpa [Strip.client] using hs
  writer _ _ hs := by simpa [Strip.client] using hs

theorem dropRelease_grants (env : Env) (b : Broker) (client : ClientId) :
    (b.dropRelease env client).broker.Does env none Action.Cascade (b.dropClient env client) := by
  unfold dropRelease dropClient
  cases b.clients[client]? with
  | none =>
    refine wakeTouched_does _ fun b key => ?_
    exact (maybeMarkIdle_does env b key fun _ => trivial).trans (tryGrantNext_does env _ key)
  | some handle => exact wakeTouched_does _ fun b key => tryGrantNext_does env b key

/-- **A client that goes takes only its own with it**, just when what its handle notes is its own: then requests
and holders of that client are removed, and all else is grants to those who waited. -/
theorem dropClient_own (env : Env) (b : Broker) (client : ClientId) :
    b.DropsOwn env client ↔ ∀ handle, b.clients[client]? = some handle → b.NotesOwn client handle := by
  constructor
  · intro ⟨⟨f, hown, hlocks⟩, _⟩ handle hh
    rw [dropRelease, hh] at hlocks
    have hstrip := (dropRegistered_locks client handle).symm.trans hlocks
    refine .of_strip fun k l hl => (hown k l hl).congr ?_
    have hget := congrArg (fun t : LockTable => t[k]?) hstrip
    simp only [LockTable.get_strip, hl, Option.map_some, Option.some.injEq] at hget
    exact hget.symm
  · intro h
    refine ⟨?_, dropRelease_grants env b client⟩
    cases hh : b.clients[client]? with
    | none =>
      refine ⟨fun _ => .client client, fun k l _ => strip_client_own client l, ?_⟩
      rw [dropRelease, hh]
      exact dropUnregistered_locks client
    | some handle =>
      refine ⟨handle.strip, fun k l hl => (h handle hh).strip_own hl, ?_⟩
      rw [dropRelease, hh]
      exact dropRegistered_locks client handle

end Broker

/-- Two clients ask for a held key under the same uuid: the queue takes the first request only, and both handles
note it. -/
def Sample.sameUuid : Broker :=
  Sample.after [.registerClient, .registerClient, .registerClient, Sample.ask 1 (Sample.lock "r" "k"),
    Sample.ask 2 (Sample.lock "x" "k"), Sample.ask 3 (Sample.lock "x" "k")]

/-- The second client goes, and the request of the first is gone. -/
theorem Broker.dropClient_takes_other :
    Reachable Sample.config Sample.sameUuid ∧ ¬Sample.sameUuid.DropsOwn Sample.env 3 := by
  refine ⟨Sample.reachable_after _, fun ⟨⟨f, hown, hlocks⟩, _⟩ => ?_⟩
  have hbefore : (Sample.sameUuid.locks["k"]?.map fun l => l.queue.entries.map fun e => (e.1, e.2.client)) =
      some [("x", 2)] := by decide +kernel
  have hafter : ((Sample.sameUuid.dropRelease Sample.env 3).broker.locks["k"]?.map fun l =>
      l.queue.entries.length) = some 0 := by decide +kernel
  obtain ⟨l, hl, hq⟩ := Option.map_eq_some_iff.1 hbefore
  have hmem : ("x", 2) ∈ l.queue.entries.map fun e => (e.1, e.2.client) := by rw [hq]; simp
  obtain ⟨e, hmem, he⟩ := List.mem_map.1 hmem
  rw [hlocks, LockTable.get_strip, hl, Option.map_some, Option.map_some, Option.some.injEq,
    List.length_eq_zero_iff] at hafter
  -- the waiter is another client's, so it is not among those taken
  have hstay : e ∈ (l.strip (f "k")).queue.entries := by
    refine List.mem_filter.2 ⟨hmem, ?_⟩
    rw [Bool.not_eq_true', Bool.eq_false_iff]
    intro hs
    have hclient := (hown "k" l hl).waiter e hmem hs
    rw [(Prod.mk.inj he).2] at hclient
    exact absurd hclient (by decide)
  rw [hafter] at hstay
  cases hstay

end LiveMutex
