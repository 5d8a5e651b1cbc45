/-
What the ledger has of one client. A client that has asked for no lock has nothing
on it. One that has asked for a single lock waits for it in one place, with only that
noted on its handle; or it was refused or granted the lock, waits for nothing, and its
handle notes no lock but the one it was told of.
-/
import LiveMutex.Restored

namespace LiveMutex

/-- The lock request of the client that an operation is. -/
def Op.acquires (c : ClientId) : Op → Option Request
  | .request client r _ => if client = c ∧ requestCanGrant r = true then some r else none
  | _ => none

/-- The handle notes nothing. -/
def ClientHandle.Blank (h : ClientHandle) : Prop :=
  h.pendingRequestUuids = [] ∧ ∀ u : String, h.heldLockUuids[u]? = none

theorem ClientHandle.Blank.new : (⟨∅, []⟩ : ClientHandle).Blank := ⟨rfl, fun _ => Std.ExtTreeMap.getElem?_empty⟩

theorem ClientHandle.Blank.within {h h' : ClientHandle} (h₀ : h.Blank) (hw : h'.Within h) : h'.Blank := by
  refine ⟨hw.1.trans h₀.1, fun u => Option.eq_none_iff_forall_ne_some.2 fun ko hko => ?_⟩
  exact Option.some_ne_none ko ((hw.2 hko).symm.trans (h₀.2 u))

namespace Ledger

variable {v v' v'' : Ledger} {env : Env} {c : ClientId} {key u : String} {p : PendingRequest} {n token : Nat}

/-- Nothing on the ledger is the client's, and it was told nothing. -/
structure Untouched (c : ClientId) (v : Ledger) : Prop where
  waits {k x : String} {p : PendingRequest} : v.Waits k x p → p.client ≠ c
  stake {k u : String} {kind : RwHoldKind} {s : Stake} : v.stake k kind u = some s → s.client ≠ c
  handle {h : ClientHandle} : v.handle c = some h → h.Blank
  told : ∀ m ∈ v.past.notices, m.client ≠ c

/-- The client waits in one place at most, and its handle notes that and what it has
of the lock so far. -/
structure Waiting (c : ClientId) (v : Ledger) : Prop where
  one {k x k' x' : String} {p p' : PendingRequest} : v.Waits k x p → p.client = c → v.Waits k' x' p' → p'.client = c →
    k = k' ∧ x = x'
  handle {k x : String} {p : PendingRequest} {h : ClientHandle} : v.Waits k x p → p.client = c → v.handle c = some h →
    (∀ e ∈ h.pendingRequestUuids, e = (k, x)) ∧
      ∀ {w ko}, h.heldLockUuids[w]? = some ko → ∃ a, p.kind = .composite a ∧ w = a.compositeLockUuid
  told : ∀ m ∈ v.past.notices, m.client ≠ c

/-- The client waits for nothing, and its handle notes no lock but the one it was told of. -/
structure Answered (c : ClientId) (v : Ledger) : Prop where
  waits {k x : String} {p : PendingRequest} : v.Waits k x p → p.client ≠ c
  handle {h : ClientHandle} : v.handle c = some h → h.pendingRequestUuids = [] ∧
    ∀ {w ko}, h.heldLockUuids[w]? = some ko → ∃ m ∈ v.past.notices, m.client = c ∧
      ∃ t, m.response.award = some ⟨ko, w, t⟩
  told : ∃ u, ∀ m ∈ v.past.notices, m.client = c → ∃ g, m.response.award = some g ∧ g.lockUuid = u

/-- The client waits for nothing, and its handle notes nothing. -/
structure Clean (c : ClientId) (v : Ledger) : Prop where
  waits {k x : String} {p : PendingRequest} : v.Waits k x p → p.client ≠ c
  handle {h : ClientHandle} : v.handle c = some h → h.Blank

/-- Where the one lock request of a client is. -/
def Once (c : ClientId) (joins : Bool) (v : Ledger) : Prop := v.Waiting c ∧ joins = true ∨ v.Answered c

theorem Untouched.answered (h : v.Untouched c) : v.Answered c where
  waits := h.waits
  handle hh := ⟨(h.handle hh).1, fun {w _} hko => absurd (hko.symm.trans ((h.handle hh).2 w)) (Option.some_ne_none _)⟩
  told := ⟨"", fun m hm hc => absurd hc (h.told m hm)⟩

/-! ## What is done for others -/

/-- Nothing comes to the client. -/
structure Spares (c : ClientId) (v v' : Ledger) : Prop where
  waits {k x : String} {p : PendingRequest} : v'.Waits k x p → p.client = c → v.Waits k x p
  stake {k u : String} {kind : RwHoldKind} {s : Stake} : v'.stake k kind u = some s → s.client = c →
    ∃ s₀, v.stake k kind u = some s₀ ∧ s₀.client = c
  handle {h' : ClientHandle} : v'.handle c = some h' → h'.Blank ∨ ∃ h, v.handle c = some h ∧ h'.Within h
  told : ∀ m, m ∈ v'.past.notices → m.client = c → m ∈ v.past.notices
  past : ∀ m, m ∈ v.past.notices → m ∈ v'.past.notices

namespace Spares

theorem refl : v.Spares c v :=
  ⟨fun h _ => h, fun h hc => ⟨_, h, hc⟩, fun h => .inr ⟨_, h, rfl, id⟩, fun _ h _ => h, fun _ h => h⟩

theorem untouched (hs : v.Spares c v') (h : v.Untouched c) : v'.Untouched c where
  waits hw hp := h.waits (hs.waits hw hp) hp
  stake hst hc := by
    obtain ⟨_, hst₀, hc₀⟩ := hs.stake hst hc
    exact h.stake hst₀ hc₀
  handle hh := (hs.handle hh).elim id fun ⟨_, hh, hw⟩ => (h.handle hh).within hw
  told m hm hc := h.told m (hs.told m hm hc) hc

theorem clean (hs : v.Spares c v') (h : v.Clean c) : v'.Clean c where
  waits hw hp := h.waits (hs.waits hw hp) hp
  handle hh := (hs.handle hh).elim id fun ⟨_, hh, hw⟩ => (h.handle hh).within hw

theorem waiting (hs : v.Spares c v') (h : v.Waiting c) : v'.Waiting c where
  one hw hp hw' hp' := h.one (hs.waits hw hp) hp (hs.waits hw' hp') hp'
  handle hw hp hh := by
    rcases hs.handle hh with hblank | ⟨h₀, hh₀, hpend, hheld⟩
    · refine ⟨fun e he => ?_, fun {w _} hko => absurd (hko.symm.trans (hblank.2 w)) (Option.some_ne_none _)⟩
      rw [hblank.1] at he
      cases he
    · obtain ⟨hpending, hlock⟩ := h.handle (hs.waits hw hp) hp hh₀
      exact ⟨fun e he => hpending e (hpend ▸ he), fun hko => hlock (hheld hko)⟩
  told m hm hc := h.told m (hs.told m hm hc) hc

theorem answered (hs : v.Spares c v') (h : v.Answered c) : v'.Answered c where
  waits hw hp := h.waits (hs.waits hw hp) hp
  handle hh := by
    rcases hs.handle hh with hblank | ⟨h₀, hh₀, hpend, hheld⟩
    · exact ⟨hblank.1, fun {w _} hko => absurd (hko.symm.trans (hblank.2 w)) (Option.some_ne_none _)⟩
    · obtain ⟨hnone, hlock⟩ := h.handle hh₀
      refine ⟨hpend.trans hnone, fun hko => ?_⟩
      obtain ⟨m, hm, hrest⟩ := hlock (hheld hko)
      exact ⟨m, hs.past m hm, hrest⟩
  told := by
    obtain ⟨u, hu⟩ := h.told
    exact ⟨u, fun m hm hc => hu m (hs.told m hm hc) hc⟩

theorem once {joins : Bool} (hs : v.Spares c v') (h : v.Once c joins) : v'.Once c joins :=
  h.imp (fun h => ⟨hs.waiting h.1, h.2⟩) hs.answered

theorem asked (h : v.Spares c v') (n : Nat) : v.Spares c (v'.asked n) := ⟨h.waits, h.stake, h.handle, h.told, h.past⟩

theorem schedule (h : v.Spares c v') (d : Option (DeadlineKey × DeadlineEntry)) : v.Spares c (v'.schedule d) :=
  ⟨h.waits, h.stake, h.handle, h.told, h.past⟩

theorem tell (h : v.Spares c v') {a : ClientId} (r : Response) (ha : a ≠ c) : v.Spares c (v'.tell a r) where
  waits := h.waits
  stake := h.stake
  handle := h.handle
  told m hm hc := by
    rcases List.mem_cons.1 hm with rfl | hm
    · exact absurd hc ha
    · exact h.told m hm hc
  past m hm := List.mem_cons_of_mem _ (h.past m hm)

theorem note (h : v.Spares c v') {a : ClientId} (f : ClientHandle → ClientHandle) (ha : a ≠ c) :
    v.Spares c (v'.note a f) where
  waits := h.waits
  stake := h.stake
  handle hh := by
    change (if a = c then (v'.handle c).map f else v'.handle c) = _ at hh
    rw [if_neg ha] at hh
    exact h.handle hh
  told := h.told
  past := h.past

theorem give (h : v.Spares c v') (keys : List String) (kind : RwHoldKind) (u : String) {s : String → Stake}
    (hs : ∀ k, (s k).client ≠ c) : v.Spares c (v'.give keys kind u s) where
  waits := h.waits
  stake hst hc := by
    rcases stake_of_give hst with hst | ⟨_, _, _, rfl⟩
    · exact h.stake hst hc
    · exact absurd hc (hs _)
  handle := h.handle
  told := h.told
  past := h.past

theorem enqueue (h : v.Spares c v') (key : String) (first : Bool) (hp : p.client ≠ c) :
    v.Spares c (v'.enqueue key p first) := by
  have hpush : v.Spares c (v'.push key p first) := by
    refine ⟨fun hw hq => ?_, h.stake, h.handle, h.told, h.past⟩
    rcases waits_of_push hw with hw | ⟨_, _, rfl⟩
    · exact h.waits hw hq
    · exact absurd hq hp
  exact hpush.note _ hp

theorem hand (hp : p.client ≠ c) : v.Spares c (v.hand key p u token) := by
  have hpop : v.Spares c (v.pop key) :=
    { refl (v := v) (c := c) with waits := fun hw _ => (pop_sublist v key _).subset hw }
  exact (hpop.give [key] (p.wants key).rwKind u fun _ => hp).note _ hp

theorem advance {next : String} {b : Composite} (hp : p.client ≠ c) : v.Spares c (v.advance key next p b token) :=
  (hand hp).enqueue (p := p.moved (b.advance key token)) next false hp

end Spares

/-! ## What is done for the client -/

variable {rest : List (String × PendingRequest)} {a : Response} {d : Option (DeadlineKey × DeadlineEntry)}

/-- The client's waiter leaves the queue, and it has no other. -/
theorem Waiting.popped (h : v.Waiting c) (hd : v.Distinct) (hq : v.queue key = (p.requestUuid, p) :: rest)
    (hp : p.client = c) {k x : String} {q : PendingRequest} (hw : (v.pop key).Waits k x q) : q.client ≠ c := by
  intro hc
  obtain ⟨hw, hne⟩ := (waits_pop hd hq).1 hw
  exact hne (h.one hw hc (waits_head hq) hp)

/-- What its handle notes with the key it is handed. -/
theorem Waiting.handed (h : v.Waiting c) (hq : v.queue key = (p.requestUuid, p) :: rest) (hp : p.client = c)
    {h' : ClientHandle} (hh : (v.hand key p u token).handle c = some h') : h'.pendingRequestUuids = [] ∧
      ∀ {w ko}, h'.heldLockUuids[w]? = some ko → w = u ∧ ko = p.wants key ∨
        ∃ a, p.kind = .composite a ∧ w = a.compositeLockUuid := by
  obtain ⟨h₀, hh₀, rfl⟩ := handle_of_note_self (hp ▸ hh)
  obtain ⟨hpending, hlock⟩ := h.handle (waits_head hq) hp (hp ▸ hh₀)
  refine ⟨List.filter_eq_nil_iff.2 fun e he => ?_, fun {w ko} hko => ?_⟩
  · simp [hpending e he]
  · change (h₀.heldLockUuids.insert u (p.wants key))[w]? = some ko at hko
    rw [OrdMap.get_insert] at hko
    split at hko
    · rename_i hw
      exact .inl ⟨hw.symm, (Option.some.inj hko).symm⟩
    · exact .inr (hlock hko)

/-- The client is granted the lock it waits for. -/
theorem Waiting.serve (h : v.Waiting c) (hd : v.Distinct) (hq : v.queue key = (p.requestUuid, p) :: rest)
    (hp : p.client = c) (hu : env.Gives p.reserved v.reads n u)
    {t : String → Option Nat} (ha : a.award = some ⟨p.wants key, u, t⟩) : (v.serve key p u token a d).Answered c where
  waits := h.popped hd hq hp
  handle hh := by
    obtain ⟨hpend, hlock⟩ := h.handed hq hp hh
    refine ⟨hpend, fun {w ko} hko => ⟨_, List.mem_cons_self, hp, t, ?_⟩⟩
    rcases hlock hko with ⟨rfl, rfl⟩ | ⟨b, hb, rfl⟩
    · exact ha
    · obtain rfl := hu.composite hb
      obtain ⟨h₀, hh₀, rfl⟩ := handle_of_note_self (hp ▸ hh)
      change (h₀.heldLockUuids.insert b.compositeLockUuid (p.wants key))[b.compositeLockUuid]? = some ko at hko
      rw [OrdMap.get_insert, if_pos rfl] at hko
      exact Option.some.inj hko ▸ ha
  told := by
    refine ⟨u, fun m hm hc => ?_⟩
    rcases List.mem_cons.1 hm with rfl | hm
    · exact ⟨_, ha, rfl⟩
    · exact absurd hc (h.told m hm)

/-- The client's composite gets a key and waits for the next. -/
theorem Waiting.advance (h : v.Waiting c) (hd : v.Distinct) {next : String} {b : Composite}
    (hq : v.queue key = (p.requestUuid, p) :: rest) (hp : p.client = c) (hk : p.kind = .composite b) :
    (v.advance key next p b token).Waiting c := by
  have hnew : ∀ {k x q}, (v.advance key next p b token).Waits k x q → q.client = c →
      k = next ∧ x = p.requestUuid ∧ q = p.moved (b.advance key token) := by
    intro k x q hw hc
    rcases waits_of_push hw with hw | hw
    · exact absurd hc (h.popped hd hq hp hw)
    · exact hw
  refine ⟨fun hw hc hw' hc' => ?_, fun {k x q h'} hw hc hh => ?_, h.told⟩
  · obtain ⟨rfl, rfl, _⟩ := hnew hw hc
    obtain ⟨rfl, rfl, _⟩ := hnew hw' hc'
    exact ⟨rfl, rfl⟩
  · obtain ⟨rfl, rfl, rfl⟩ := hnew hw hc
    obtain ⟨h₁, hh₁, rfl⟩ := handle_of_note_self (hc ▸ hh)
    obtain ⟨hpend, hlock⟩ := h.handed hq hp (hp ▸ hh₁)
    refine ⟨fun e he => ?_, fun {w ko} hko => ⟨b.advance key token, rfl, ?_⟩⟩
    · rw [hpend] at he
      exact List.mem_singleton.1 he
    · rcases hlock hko with ⟨rfl, _⟩ | ⟨b', hb', rfl⟩
      · rfl
      · obtain rfl := PendingKind.composite.inj (hk.symm.trans hb')
        rfl

/-! ## Turns -/

/-- While waiters are granted, a client that does not wait is left alone. -/
theorem Grants.spares (h : v.Grants env v') (hw : ∀ {k x p}, v.Waits k x p → p.client ≠ c) : v.Spares c v' := by
  cases h with
  | idle _ h => exact h ▸ Spares.refl.asked _
  | serve token hq _ _ _ _ _ h =>
    have hp := hw (waits_head hq)
    exact h ▸ (((Spares.hand hp).schedule _).tell _ hp).asked _
  | advance token n hq _ _ _ h =>
    have hp := hw (waits_head hq)
    exact h ▸ (Spares.advance hp).asked _

theorem Grants.once {joins : Bool} (h : v.Grants env v') (hd : v.Distinct) (ho : v.Once c joins) : v'.Once c joins := by
  rcases ho with ⟨hwait, hj⟩ | hans
  · cases h with
    | idle _ h => exact .inl ⟨h ▸ (Spares.refl.asked _).waiting hwait, hj⟩
    | @serve token key u p rest n a d hq _ hu _ ha _ h =>
      by_cases hp : p.client = c
      · exact .inr (h ▸ (Spares.refl.asked _).answered (hwait.serve hd hq hp hu ha.award))
      · exact .inl ⟨h ▸ ((((Spares.hand hp).schedule _).tell _ hp).asked _).waiting hwait, hj⟩
    | @advance token n key next p rest b more hq hk _ _ h =>
      by_cases hp : p.client = c
      · exact .inl ⟨h ▸ (Spares.refl.asked _).waiting (hwait.advance hd hq hp hk), hj⟩
      · exact .inl ⟨h ▸ ((Spares.advance hp).asked _).waiting hwait, hj⟩
  · exact .inr ((h.spares hans.waits).answered hans)

theorem Cascade.untouched (h : v.Cascade env v') (hv : v.Untouched c) : v'.Untouched c :=
  h.inv hv fun hg hv => (hg.spares hv.waits).untouched hv

theorem Cascade.clean (h : v.Cascade env v') (hv : v.Clean c) : v'.Clean c :=
  h.inv hv fun hg hv => (hg.spares hv.waits).clean hv

theorem Cascade.once {joins : Bool} (h : v.Cascade env v') (hd : v.Distinct) (hv : v.Once c joins) :
    v'.Once c joins :=
  (h.inv (I := fun v => v.Distinct ∧ v.Once c joins) ⟨hd, hv⟩ fun hg hv => ⟨hv.1.grants hg, hg.once hv.1 hv.2⟩).2

/-- A request of another client comes in. -/
theorem Enters.spares {op : Op} (h : v.Enters env op v') (hop : op.acquires c = none) : v.Spares c v' := by
  have hne : ∀ {client r overrides}, requestCanGrant r = true → (Op.request client r overrides).acquires c = none →
      client ≠ c := by
    intro client r overrides hr hop he
    rw [Op.acquires, if_pos ⟨he, hr⟩] at hop
    cases hop
  cases h with
  | still => exact .refl
  | @award lock kept token client r overrides u a d n hr _ _ _ _ =>
    have hc := hne hr hop
    exact ((((Spares.refl.give lock.keys lock.rwKind u fun _ => hc).note _ hc).schedule d).tell a hc).asked n
  | @enqueue client r overrides key p first n hj _ hc _ _ _ =>
    subst hc
    exact (Spares.refl.enqueue key first (hne (Request.canGrant_of_joins hj) hop)).asked n

/-- Its own request comes in, the first one. -/
theorem Enters.once {op : Op} {r : Request} (h : v.Enters env op v') (hop : op.acquires c = some r) (hv : v.Untouched c) :
    v'.Once c r.joins := by
  cases h with
  | still => exact .inr hv.answered
  | @award lock kept token client r' overrides u a d n _ _ _ ha _ =>
    have hc : client = c := by
      by_contra hne
      rw [Op.acquires, if_neg fun h => hne h.1] at hop
      cases hop
    subst hc
    refine .inr ⟨hv.waits, fun {h'} hh => ?_, u, fun m hm hc => ?_⟩
    · obtain ⟨h₀, hh₀, rfl⟩ := handle_of_note_self hh
      refine ⟨(hv.handle hh₀).1, fun {w ko} hko => ⟨_, List.mem_cons_self, rfl,
        fun k => if k ∈ lock.keys then some (token k) else none, ?_⟩⟩
      change (h₀.heldLockUuids.insert u lock)[w]? = some ko at hko
      rw [OrdMap.get_insert] at hko
      split at hko
      · rename_i hw
        rw [← hw, ← Option.some.inj hko]
        exact ha.award
      · exact absurd (hko.symm.trans ((hv.handle hh₀).2 w)) (Option.some_ne_none _)
    · rcases List.mem_cons.1 hm with rfl | hm
      · exact ⟨_, ha.award, rfl⟩
      · exact absurd hc (hv.told m hm)
  | @enqueue client r' overrides key p first n hj hstarts hpc hx _ _ =>
    have hr : r' = r := by
      rw [Op.acquires] at hop
      split at hop
      · exact Option.some.inj hop
      · cases hop
    have hc : p.client = c := by
      by_contra hne
      rw [Op.acquires, if_neg fun h => hne (hpc.trans h.1)] at hop
      cases hop
    have hnew : ∀ {k x q}, (v.enqueue key p first).Waits k x q → q.client = c → k = key ∧ x = p.requestUuid ∧ q = p :=
      fun hw hq => (waits_of_push hw).resolve_left fun hw => hv.waits hw hq
    refine .inl ⟨⟨fun hw hq hw' hq' => ?_, fun {k x q h'} hw hq hh => ?_, hv.told⟩, hr ▸ hj⟩
    · obtain ⟨rfl, rfl, _⟩ := hnew hw hq
      obtain ⟨rfl, rfl, _⟩ := hnew hw' hq'
      exact ⟨rfl, rfl⟩
    · obtain ⟨rfl, rfl, rfl⟩ := hnew hw hq
      obtain ⟨h₀, hh₀, rfl⟩ := handle_of_note_self (hc ▸ hh)
      obtain ⟨hblank, hnone⟩ := hv.handle (hc ▸ hh₀)
      refine ⟨fun e he => ?_, fun {w ko} hko => absurd (hko.symm.trans (hnone w)) (Option.some_ne_none _)⟩
      rw [hblank] at he
      exact List.mem_singleton.1 he

end Ledger

namespace Broker

variable {env : Env} {b : Broker} {c : ClientId} {op : Op}

theorem Opens.spares {v : Ledger} (h : b.Opens op v) (hc : c ≠ snapshotDetachedClient) : b.ledger.Spares c v where
  waits hw _ := (h.queue_sublist _).subset hw
  stake hs hsc := by
    obtain ⟨s₀, hs₀, _, _, hcl⟩ := h.stake_left hs
    exact ⟨s₀, hs₀, (hcl.resolve_right fun hz => hc (hsc.symm.trans hz)).symm.trans hsc⟩
  handle hh := (h.handle_within hh).imp_left fun ⟨_, he, _⟩ => he ▸ .new
  told m hm _ := by rwa [h.rest.2] at hm
  past m hm := by rwa [h.rest.2]

/-- A client that asks for nothing stays untouched. -/
theorem apply_untouched (hs : b.Sane) (hc : c ≠ snapshotDetachedClient) (hop : op.acquires c = none)
    (h : b.ledger.Untouched c) : (b.apply env op).ledger.Untouched c := by
  obtain ⟨v₁, v₂, ho, he, hcascade⟩ := apply_turns env hs op
  exact hcascade.untouched ((he.spares hop).untouched ((ho.spares hc).untouched h))

theorem apply_clean (hs : b.Sane) (hc : c ≠ snapshotDetachedClient) (hop : op.acquires c = none)
    (h : b.ledger.Clean c) : (b.apply env op).ledger.Clean c := by
  obtain ⟨v₁, v₂, ho, he, hcascade⟩ := apply_turns env hs op
  exact hcascade.clean ((he.spares hop).clean ((ho.spares hc).clean h))

/-- The client asks for no second lock. -/
theorem apply_once {joins : Bool} (hs : b.Sane) (hc : c ≠ snapshotDetachedClient) (hop : op.acquires c = none)
    (h : b.ledger.Once c joins) : (b.apply env op).ledger.Once c joins := by
  obtain ⟨v₁, v₂, ho, he, hcascade⟩ := apply_turns env hs op
  have hd : v₂.Distinct := .enters ((ledger_distinct b).sub ho.queue_sublist) he
  exact hcascade.once hd ((he.spares hop).once ((ho.spares hc).once h))

/-- The client asks for its first lock. -/
theorem apply_first {r : Request} (hs : b.Sane) (hc : c ≠ snapshotDetachedClient) (hop : op.acquires c = some r)
    (h : b.ledger.Untouched c) : (b.apply env op).ledger.Once c r.joins := by
  obtain ⟨v₁, v₂, ho, he, hcascade⟩ := apply_turns env hs op
  have hd : v₂.Distinct := .enters ((ledger_distinct b).sub ho.queue_sublist) he
  exact hcascade.once hd (he.once hop ((ho.spares hc).untouched h))

end Broker

end LiveMutex
