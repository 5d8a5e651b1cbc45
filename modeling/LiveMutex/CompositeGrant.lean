/-
Composite atomicity: the keys a waiting composite has been granted stay its
own until it has them all, so the answer that awards the lock is true. What can
break it is a release that takes a granted key from under a composite that goes
on waiting: an unlock naming that key (the queued notice discloses the uuid, and
`force` needs none), or the drop of an unregistered client that owns the hold but
not the waiter.
-/
import LiveMutex.Reserved
import LiveMutex.Sample

namespace LiveMutex

/-- The composite of a composite request. -/
def PendingKind.composite? : PendingKind → Option Composite
  | .composite c => some c
  | _ => none

/-! ## What an operation takes -/

namespace Op

theorem strip_cuts (b : Broker) (op : Op) (k : String) : (op.strip b k).Cuts (op.cut b) k := by
  have hnothing : (Strip.nothing).Cuts {} k := ⟨fun _ _ => rfl, fun _ _ => rfl, fun _ _ => rfl, fun _ => rfl⟩
  cases op with
  | request client r overrides =>
    cases r with
    | unlock uuid key keys target force =>
      cases key <;> cases keys
      · exact hnothing
      · exact .unlock b client _ target force k
      · exact .unlock b client _ target force k
      · exact hnothing
    | endRead uuid key => exact .endRead key client k
    | endWrite uuid key => exact .endWrite key client k
    | _ => exact hnothing
  | dropClient client =>
    show (b.dropStrip client k).Cuts ((b.clients[client]?.map ClientHandle.cut).getD (.client client)) k
    unfold Broker.dropStrip
    cases b.clients[client]? with
    | none => exact .client client k
    | some handle => exact .handle handle k
  | _ => exact hnothing

/-- The operation releases the hold under `u` on the key `k`. -/
def takes (b : Broker) (op : Op) (k u : String) : Bool :=
  b.locks[k]?.any fun l => l.exclusiveHolders[u]?.any fun h => (op.strip b k).exclusive u h

theorem takes_iff {b : Broker} {op : Op} {k u : String} : op.takes b k u = true ↔
    ∃ s, b.ledger.stake k .exclusive u = some s ∧ (op.cut b).stake k .exclusive u s = true := by
  show _ ↔ ∃ s, b.locks.stakeAt k .exclusive u = some s ∧ _
  simp only [takes, Option.any_eq_true, (strip_cuts b op k).exclusive, LockTable.stakeAt, LockState.stake,
    Option.bind_eq_some_iff, Option.map_eq_some_iff]
  constructor
  · rintro ⟨l, hl, h, hh, hc⟩
    exact ⟨_, ⟨l, hl, h, hh, rfl⟩, hc⟩
  · rintro ⟨_, ⟨l, hl, h, hh, rfl⟩, hc⟩
    exact ⟨l, hl, h, hh, hc⟩

/-- Of the composites that wait and are `which`, the operation takes no key
they have been granted, unless it withdraws the waiter too. -/
def sparesParts (b : Broker) (op : Op) (which : PendingRequest → Bool) : Bool :=
  b.locks.waiters.all fun (q, x, p) =>
    !which p || (op.strip b q).waiter x p || p.kind.composite?.all fun c =>
      c.grantedKeys.all fun k => !op.takes b k c.compositeLockUuid

theorem sparesParts_iff {b : Broker} {op : Op} {which : PendingRequest → Bool} : op.sparesParts b which = true ↔
    ∀ {q x p c}, b.ledger.Waits q x p → which p = true → (op.cut b).waiter q x p = false → p.kind = .composite c →
      ∀ k ∈ c.grantedKeys, op.takes b k c.compositeLockUuid = false := by
  simp only [sparesParts, List.all_eq_true, Bool.or_eq_true, Bool.not_eq_true', Prod.forall, LockTable.mem_waiters,
    ← Broker.ledger_waits, (strip_cuts b op _).waiter]
  constructor
  · intro h q x p c hw hp hcut hc
    rcases h q x p hw with (h | h) | h
    · exact absurd (h.symm.trans hp) nofun
    · exact absurd (hcut.symm.trans h) nofun
    · simpa [hc, PendingKind.composite?] using h
  · intro h q x p hw
    by_cases hp : which p = false
    · exact .inl (.inl hp)
    by_cases hcut : (op.cut b).waiter q x p = true
    · exact .inl (.inr hcut)
    refine .inr ?_
    cases hc : p.kind with
    | composite c => simpa [PendingKind.composite?] using h hw (by simpa using hp) (by simpa using hcut) hc
    | _ => simp [PendingKind.composite?]

/-- The drop of a client that is registered. -/
def dropsRegistered (b : Broker) : Op → Bool
  | .dropClient client => b.clients.contains client
  | _ => false

/-- It takes what the client's handle says. -/
theorem dropsRegistered_cut {b : Broker} {op : Op} (h : op.dropsRegistered b = true) :
    ∃ (client : ClientId) (handle : ClientHandle), b.ledger.handle client = some handle ∧ op.cut b = handle.cut := by
  unfold dropsRegistered at h
  split at h
  · rename_i client
    rw [Std.ExtTreeMap.contains_iff_mem, OrdMap.mem_iff_get] at h
    obtain ⟨handle, hh⟩ := h
    exact ⟨client, handle, hh, by simp only [cut, hh, Option.map_some, Option.getD_some]⟩
  · cases h

end Op

/-! ## The keys a waiting composite has -/

namespace Ledger

variable {v v' : Ledger} {env : Env} {which : PendingRequest → Bool}

/-- The key is held under the composite's uuid, with the token it collected. -/
def HasPart (v : Ledger) (c : Composite) (k : String) : Prop :=
  ∃ s, v.stake k .exclusive c.compositeLockUuid = some s ∧ s.kept = false ∧ c.grantedTokens[k]? = some s.token

/-- Every waiting composite that is `which` has the keys it was granted. -/
def Parts (which : PendingRequest → Bool) (v : Ledger) : Prop :=
  ∀ q x p c, v.Waits q x p → which p = true → p.kind = .composite c → ∀ k ∈ c.grantedKeys, v.HasPart c k

/-- The composite got the key on top of those it had. -/
theorem HasPart.hand {key : String} {p : PendingRequest} {c : Composite} (token : Nat) (hk : p.kind = .composite c)
    (hc : ∀ k ∈ c.grantedKeys, v.HasPart c k) {k : String} (hk' : k ∈ c.grantedKeys ++ [key]) :
    (v.hand key p c.compositeLockUuid token).HasPart (c.advance key token) k := by
  have hstake : (v.hand key p c.compositeLockUuid token).stake k .exclusive c.compositeLockUuid =
      if k = key then some ⟨p.client, false, token⟩ else v.stake k .exclusive c.compositeLockUuid := by
    simp [Ledger.hand, Ledger.note, Ledger.give, Ledger.pop, PendingRequest.wants, PendingRequest.keeps, hk]
  unfold HasPart
  rw [show (c.advance key token).compositeLockUuid = c.compositeLockUuid from rfl, hstake,
    show (c.advance key token).grantedTokens = c.grantedTokens.insert key token from rfl, OrdMap.get_insert]
  by_cases he : key = k
  · subst he
    exact ⟨_, if_pos rfl, rfl, if_pos rfl⟩
  · have hmem : k ∈ c.grantedKeys := by
      simp only [List.mem_append, List.mem_singleton] at hk'
      exact hk'.resolve_right (Ne.symm he)
    rw [if_neg (Ne.symm he), if_neg he]
    exact hc k hmem

theorem Grants.parts (hwhich : ∀ p c, which (p.moved c) = which p) (h : v.Grants env v') (hv : v.Ordered env)
    (hp : v.Parts which) : v'.Parts which := by
  cases h with
  | idle _ h =>
    subst h
    exact hp
  | @serve token key u p rest n a d hq hlast hu hn ha hd h =>
    subst h
    obtain ⟨hfree, _⟩ := hv.reserves.head_free hv.agrees hv.distinct hq hu
    intro q x p' c hw hw' hc k hk
    obtain ⟨s, hs, hkept⟩ := hp q x p' c ((pop_sublist v key _).subset hw) hw' hc k hk
    refine ⟨s, ?_, hkept⟩
    rw [← hs]
    exact hand_stake_ne fun he => hfree hw (he ▸ PendingRequest.reserved_of_composite hc)
  | @advance token n key next p rest c more hq hk hmore hn h =>
    subst h
    intro q x p' c' hw hw' hc k hk'
    rcases waits_of_push hw with hw | ⟨_, _, rfl⟩
    · obtain ⟨s, hs, hkept⟩ := hp q x p' c' ((pop_sublist v key _).subset hw) hw' hc k hk'
      refine ⟨s, ?_, hkept⟩
      rw [← hs]
      exact hand_stake_ne fun he =>
        hv.reserves.pop_free hv.distinct hq (PendingRequest.reserved_of_composite hk) hw
          (he ▸ PendingRequest.reserved_of_composite hc)
    · obtain rfl := PendingKind.composite.inj hc
      rw [hwhich] at hw'
      exact HasPart.hand token hk (hp key _ p c (waits_head hq) hw' hk) hk'

theorem Enters.parts {op : Op} (h : v.Enters env op v') (hv : v.Agrees env)
    (hnew : ∀ u, op.given = some u → ¬v.Known u ∧ ∀ m, v.reads ≤ m → env.newV4 m ≠ u) (hp : v.Parts which) :
    v'.Parts which := by
  cases h with
  | still _ => exact hp
  | @award lock kept token client r overrides u a d n _ hu hn _ hd =>
    have hunk : ¬v.Known u := hu.new (fun w hw => (hnew w hw).1) fun _ => hv.undrawn
    intro q x p c hw hw' hc k hk
    obtain ⟨s, hs, hkept⟩ := hp q x p c hw hw' hc k hk
    refine ⟨s, ?_, hkept⟩
    rw [← hs]
    exact award_stake_ne (a := a) (d := d) fun he => hunk ⟨_, _, .waiter hw (he ▸ PendingRequest.reserved_of_composite hc)⟩
  | enqueue _ hstarts =>
    intro q x p' c hw hw' hc k hk
    rcases waits_of_push hw with hw | ⟨_, _, rfl⟩
    · exact hp q x p' c hw hw' hc k hk
    · -- a request that has just come has no key yet
      rw [(hstarts c hc).2.2.2.2.1] at hk
      cases hk

end Ledger

namespace Broker

variable {env : Env} {b b' : Broker} {op : Op} {v : Ledger} {which : PendingRequest → Bool}

theorem Opens.parts (h : b.Opens op v) (hb : b.ledger.Ordered env) (hp : b.ledger.Parts which)
    (hs : op.sparesParts b which = true) : v.Parts which := by
  intro q x p c hw hw' hc k hk
  obtain ⟨hw, hwaiter⟩ := h.waits hw
  obtain ⟨s, hst, hkept, htoken⟩ := hp q x p c hw hw' hc k hk
  have hspared := Op.sparesParts_iff.1 hs hw hw' hwaiter hc k hk
  have hcut : (op.cut b).stake k .exclusive c.compositeLockUuid s = false := by
    rw [← Bool.not_eq_true]
    exact fun ht => absurd (hspared.symm.trans (Op.takes_iff.2 ⟨s, hst, ht⟩)) nofun
  rcases h.stake_stays hst hcut with ⟨s', hs', hlike⟩ | ⟨dk, e, _, hd, hu, _⟩
  · exact ⟨s', hs', hlike.1.trans hkept, by rw [htoken, hlike.2]⟩
  · exact absurd (hu ▸ PendingRequest.reserved_of_composite hc) (hb.reserves.due hw hd)

theorem parts_install {other : Broker} {now : Instant} (hwhich : ∀ p : PendingRequest, which p.restored = which p)
    (hs : other.Sane) (ho : other.ledger.Parts which)
    (hi : b.installRaftSnapshot env (other.snapshotForRaft now) = .ok b') : b'.ledger.Parts which := by
  have hlocks := (installBrokerRaftSnapshot_locks (installRaftSnapshot_ok hi).2).1
  intro q x p c hw hp hc k hk
  obtain ⟨p₀, hw₀, rfl⟩ := restore_waits hs hlocks (ledger_waits.1 hw)
  rw [hwhich] at hp
  obtain ⟨s, hst, hkept, htoken⟩ := ho q x p₀ c (ledger_waits.2 hw₀) hp hc k hk
  refine ⟨{ s with client := snapshotDetachedClient }, ?_, hkept, htoken⟩
  rw [restore_stake hlocks, hst, Option.map_some]

/-- The end of a registered client takes the keys of its own waiters only, and
those leave their queues with it. -/
theorem sparesParts_of_registered (hb : b.ledger.Reserves) (h : op.dropsRegistered b = true) :
    op.sparesParts b which = true := by
  obtain ⟨client, handle, hh, hcut⟩ := Op.dropsRegistered_cut h
  refine Op.sparesParts_iff.2 fun {q x p c} hw _ hwaiter hc k _ => ?_
  rw [← Bool.not_eq_true, Op.takes_iff]
  rintro ⟨s, _, htake⟩
  rw [hcut] at htake hwaiter
  simp only [ClientHandle.cut, Bool.and_eq_true, Option.any_eq_true] at htake
  obtain ⟨⟨ko, hko, _⟩, _⟩ := htake
  simp only [ClientHandle.cut, decide_eq_false_iff_not] at hwaiter
  exact hwaiter (hb.held hh hko hw (PendingRequest.reserved_of_composite hc)).2

end Broker

/-! ## Awards -/

/-- When the message awards a composite lock, every key of it is held under
its uuid at that moment, with the token it states. -/
def Sent.Whole (s : Sent) : Prop :=
  ∀ uuid keys lockUuid tokens err, s.response = .compositeLock uuid keys true lockUuid tokens err →
    ∃ u t, lockUuid = some u ∧ tokens = some t ∧ ∀ k ∈ keys, ∃ l h, s.locks[k]? = some l ∧
      l.exclusiveHolders[u]? = some h ∧ t[k]? = some h.fencingToken

/-- What the notice awards was held when it was sent, with the tokens it states. -/
def Notice.Whole (n : Notice) : Prop :=
  ∃ a, n.response.award = some a ∧ ∀ k ∈ a.lock.keys, ∃ s, n.stake k a.lock.rwKind a.lockUuid = some s ∧
    a.token k = some s.token

theorem Sent.Whole.of_notice {s : Sent} (h : ∀ n ∈ s.notice, n.Whole) : s.Whole := by
  intro uuid keys lockUuid tokens err hr
  obtain ⟨a, ha, hall⟩ := h ⟨s.client, s.response, s.locks.stakeAt⟩ (by rw [Sent.notice, hr]; rfl)
  dsimp only at ha hall
  rw [hr] at ha
  cases lockUuid with
  | none => cases ha
  | some u =>
    cases tokens with
    | none => cases ha
    | some t =>
      obtain rfl := Option.some.inj ha
      refine ⟨u, t, rfl, rfl, fun k hk => ?_⟩
      obtain ⟨st, hst, ht⟩ := hall k hk
      obtain ⟨l, hl, hst⟩ := Option.bind_eq_some_iff.1 hst
      obtain ⟨h, hh, rfl⟩ := Option.map_eq_some_iff.1 hst
      exact ⟨l, h, hl, hh, ht⟩

namespace Ledger

variable {v v' : Ledger} {env : Env}

/-- Whatever was told so far was true. -/
def Truthful (v : Ledger) : Prop := ∀ n ∈ v.past.notices, n.Whole

theorem Grants.truthful (h : v.Grants env v') (hp : v.Parts fun _ => true) (ht : v.Truthful) : v'.Truthful := by
  cases h with
  | idle _ h =>
    subst h
    exact ht
  | @serve token key u p rest n a d hq hlast hu hn ha hd h =>
    subst h
    refine List.forall_mem_cons.2 ⟨⟨_, ha.award, fun k hk => ?_⟩, ht⟩
    show ∃ s, (v.hand key p u token).stake k (p.wants key).rwKind u = some s ∧
      (if key = k then some token else p.collected k) = some s.token
    cases hc : p.kind with
    | composite c =>
      obtain rfl := hu.composite hc
      have hk' : k ∈ c.grantedKeys ++ [key] := by simpa [PendingRequest.wants, hc, ← hlast c hc] using hk
      obtain ⟨s, hs, _, htoken⟩ := HasPart.hand token hc (hp key _ p c (waits_head hq) rfl hc) hk'
      refine ⟨s, by simpa [PendingRequest.wants, hc, Composite.advance] using hs, ?_⟩
      rw [← htoken, show (c.advance key token).grantedTokens = c.grantedTokens.insert key token from rfl,
        OrdMap.get_insert]
      simp [PendingRequest.collected, hc]
    | _ =>
      obtain rfl : k = key := by simpa [PendingRequest.wants, hc] using hk
      exact ⟨⟨p.client, p.keeps, token⟩, by simp [hand, note, give], if_pos rfl⟩
  | advance token n hq hp' hr hn h =>
    subst h
    exact ht

theorem Enters.truthful {op : Op} (h : v.Enters env op v') (ht : v.Truthful) : v'.Truthful := by
  cases h with
  | still _ => exact ht
  | award lock kept token _ _ _ ha _ =>
    refine List.forall_mem_cons.2 ⟨⟨_, ha.award, fun k hk => ?_⟩, ht⟩
    exact ⟨⟨_, kept, token k⟩, if_pos ⟨hk, rfl, rfl⟩, if_pos hk⟩
  | enqueue => exact ht

/-- What keeps composite locks whole. -/
structure Atomic (env : Env) (v : Ledger) : Prop where
  ordered : v.Ordered env
  parts : v.Parts fun _ => true
  truthful : v.Truthful

end Ledger

/-- The operation leaves every waiting composite the keys it has (a registered
client's end always does), and a uuid it prescribes is new. -/
structure Op.SparesComposites (env : Env) (b : Broker) (op : Op) : Prop where
  prescribed : op.PrescribesNew env b
  parts : op.dropsRegistered b = true ∨ op.sparesParts b (fun _ => true) = true

theorem Broker.apply_atomic {env : Env} {b : Broker} (h : b.ledger.Atomic env) (hinj : Function.Injective env.newV4)
    (hb : b.Sane) {op : Op} (hop : op.SparesComposites env b) : (b.apply env op).ledger.Atomic env := by
  obtain ⟨v₁, v₂, ho, he, hc⟩ := apply_turns env hb op
  have hnew := ho.prescribesNew hop.prescribed
  have hp₁ : v₁.Parts fun _ => true :=
    ho.parts h.ordered h.parts (hop.parts.elim (sparesParts_of_registered h.ordered.reserves) id)
  have ht₁ : v₁.Truthful := by
    unfold Ledger.Truthful
    rw [ho.rest.2]
    exact h.truthful
  have ho₁ := ho.ordered h.ordered
  obtain ⟨hordered, hparts, htruthful⟩ := hc.keeps (I := fun v => v.Parts (fun _ => true) ∧ v.Truthful) hinj
    (fun hg hv hi => ⟨hg.parts (fun _ _ => rfl) hv hi.1, hg.truthful hi.1 hi.2⟩) (he.ordered hinj ho₁ hnew)
    ⟨he.parts ho₁.agrees hnew hp₁, he.truthful ht₁⟩
  exact ⟨hordered, hparts, htruthful⟩

/-- **A composite lock that is awarded is held whole**: in every run whose
operations leave waiting composites the keys they have, whenever `acquired: true`
is sent for a composite lock, every one of its keys is held under its uuid at
that moment, each with the token stated. -/
theorem Broker.RunsIn.composite_whole {cfg : BrokerConfig} {env : Env} {b : Broker}
    (h : RunsIn cfg (fun env b op => op.SparesComposites env b) Broker.Fits env b) : ∀ s ∈ b.sent, s.Whole := by
  have hatomic : b.ledger.Atomic env := by
    induction h with
    | new =>
      refine ⟨ordered_new cfg, fun q x p c hw => ?_, ?_⟩
      · simp [Ledger.Waits] at hw
      · simp [Ledger.Truthful, ledger, past, Broker.new]
    | apply op hop hb ih => exact apply_atomic ih hb.injective (.reachable hb.reachable) hop
    | install now _ ho hfits hi ih ih' =>
      have hs := Sane.reachable ho.reachable
      refine ⟨ordered_install hs ih'.ordered hfits hi, parts_install (fun _ => rfl) hs ih'.parts hi, ?_⟩
      intro n hn
      change n ∈ (Broker.past _).notices at hn
      rw [(install_rest hi).2.2.2] at hn
      exact ih.truthful n hn
  exact fun s hs => .of_notice fun n hn => hatomic.truthful n (List.mem_filterMap.2 ⟨s, hs, hn⟩)

/-- A composite waits for its second key, and gets it. -/
theorem Broker.RunsIn.composite_whole_second_key :
    ∃ s ∈ (Sample.after [Sample.ask 1 (Sample.lock "r" "b"), Sample.ask 2 (Sample.lockAll "s" ["a", "b"]),
        Sample.ask 1 (Sample.unlock "t" "b" "uu")]).sent,
      s.response = .compositeLock "s" ["a", "b"] true (some "uuu")
        (some (Std.ExtTreeMap.insert (Std.ExtTreeMap.insert ∅ "a" 2) "b" 2)) none ∧ s.Whole := by
  have hmeets : Runs.Meets (fun env b op => op.SparesComposites env b) Sample.env (Broker.new Sample.config)
      [Sample.ask 1 (Sample.lock "r" "b"), Sample.ask 2 (Sample.lockAll "s" ["a", "b"]),
        Sample.ask 1 (Sample.unlock "t" "b" "uu")] := by
    refine ⟨⟨?_, .inr ?_⟩, ⟨?_, .inr ?_⟩, ⟨?_, .inr ?_⟩, trivial⟩
    all_goals first | exact fun _ h => nomatch h | decide +kernel
  have hwhole := composite_whole (applyAll _ (.new Sample.env Sample.newV4_injective) hmeets)
  have hany : (Sample.after [Sample.ask 1 (Sample.lock "r" "b"), Sample.ask 2 (Sample.lockAll "s" ["a", "b"]),
      Sample.ask 1 (Sample.unlock "t" "b" "uu")]).sent.any (fun s => decide (s.response =
        .compositeLock "s" ["a", "b"] true (some "uuu")
          (some (Std.ExtTreeMap.insert (Std.ExtTreeMap.insert ∅ "a" 2) "b" 2)) none)) = true := by
    decide +kernel
  obtain ⟨s, hs, hr⟩ := List.any_eq_true.1 hany
  exact ⟨s, hs, of_decide_eq_true hr, hwhole s hs⟩

/-- The second client gives back the one key its waiting composite has; the
lock it is then awarded lacks that key. -/
theorem Broker.composite_torn_by_unlock :
    ∃ s ∈ (Sample.after [Sample.ask 1 (Sample.lock "r" "b"), Sample.ask 2 (Sample.lockAll "s" ["a", "b"]),
        Sample.ask 2 (Sample.unlock "t" "a" "uuu"), Sample.ask 1 (Sample.unlock "v" "b" "uu")]).sent, ¬s.Whole := by
  have hany : (Sample.after [Sample.ask 1 (Sample.lock "r" "b"), Sample.ask 2 (Sample.lockAll "s" ["a", "b"]),
      Sample.ask 2 (Sample.unlock "t" "a" "uuu"), Sample.ask 1 (Sample.unlock "v" "b" "uu")]).sent.any (fun s =>
        decide (s.response = .compositeLock "s" ["a", "b"] true (some "uuu")
          (some (Std.ExtTreeMap.insert (Std.ExtTreeMap.insert ∅ "a" 2) "b" 2)) none) &&
        s.locks["a"]?.all fun l => l.exclusiveHolders["uuu"]?.isNone) = true := by
    decide +kernel
  obtain ⟨s, hs, hr⟩ := List.any_eq_true.1 hany
  obtain ⟨hresponse, hlost⟩ := Bool.and_eq_true_iff.1 hr
  refine ⟨s, hs, fun hwhole => ?_⟩
  obtain ⟨u, t, hu, _, hall⟩ := hwhole _ _ _ _ _ (of_decide_eq_true hresponse)
  obtain rfl := Option.some.inj hu
  obtain ⟨l, h, hl, hh, _⟩ := hall "a" (by decide)
  simp [hl, hh] at hlost

end LiveMutex
