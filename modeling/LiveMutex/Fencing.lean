/-
Fencing tokens of a broker whose requests carry no grant overrides: on every
key they strictly increase in the order they are given out, also across the
reclaiming of the key's entry, and the watermark bounds them all. Nothing is
assumed about the wall clock. The tokens that clients are told are the ones given
out.
-/
import LiveMutex.LedgerFacts
import LiveMutex.Sample

namespace LiveMutex

/-! ## One step -/

namespace LockState

@[simp] theorem take_fencingCounter (l : LockState) (terms : Terms) (g : Grant) :
    (l.take terms g).fencingCounter = (l.nextOrForcedFencingToken terms.forced).1.fencingCounter := by
  unfold take
  dsimp only
  split <;> rfl

@[simp] theorem removeForKind_fencingCounter (l : LockState) (u : String) (kind : RwHoldKind) :
    (l.removeForKind u kind).fencingCounter = l.fencingCounter := by
  cases kind with
  | exclusive => rfl
  | read => rfl
  | write =>
    unfold removeForKind
    dsimp only
    split <;> rfl

/-- Below the end of `u64`, the next token is the counter's successor. -/
theorem Mints.token_eq {l : LockState} {terms : Terms} {g : Grant} (h : l.Mints terms g)
    (hf : terms.forced = none) (hc : g.counter < u64Max) :
    g.token = l.fencingCounter + 1 ∧ (l.take terms g).fencingCounter = g.token := by
  have hlt : l.fencingCounter + 1 < 2 ^ 64 := by
    have := h.counter ▸ hc
    unfold u64Max at this
    omega
  have htoken : g.token = Nat.max ((l.fencingCounter + 1) % 2 ^ 64) 1 := by rw [h.token, hf]; rfl
  refine ⟨?_, ?_⟩
  · rw [htoken, Nat.mod_eq_of_lt hlt]
    exact max_eq_left (Nat.le_add_left 1 _)
  · rw [take_fencingCounter, h.token, hf]
    rfl

end LockState

/-- No token of the action is prescribed. -/
def Action.Unforced : Action → Prop
  | .grant _ terms => terms.forced = none
  | .grantHead _ p | .finish _ p _ | .advance _ p _ _ => p.grantFencingSeed = none
  | _ => True

theorem PendingRequest.terms_forced {p : PendingRequest} (h : p.grantFencingSeed = none) (key : String) :
    (p.terms key).forced = none := by
  unfold terms
  split <;> simp [h]

/-- What a step does to the counters: an entry's counter does not fall, a new
entry starts at `floor` or above, and a token given out is above the counter
it comes from. -/
def CountersRise (floor : Nat) (gs : List Grant) (t t' : LockTable) : Prop :=
  ∀ (k : String) (l' : LockState), t'[k]? = some l' →
    (∃ l, t[k]? = some l ∧ l.fencingCounter ≤ l'.fencingCounter ∧
      ∀ g ∈ gs, g.key = k → l.fencingCounter < g.token ∧ g.token ≤ l'.fencingCounter) ∨
    t[k]? = none ∧ floor ≤ l'.fencingCounter

namespace CountersRise

variable {floor : Nat} {t t' : LockTable} {key : String} {l l' : LockState}

/-- An entry changes, its counter stays. -/
theorem put {gs : List Grant} (h : CountersRise floor gs t t') (hk : t'[key]? = some l)
    (hc : l'.fencingCounter = l.fencingCounter) : CountersRise floor gs t (t'.insert key l') := by
  intro k m hm
  rw [OrdMap.get_insert] at hm
  split at hm
  · rename_i he
    obtain rfl := Option.some.inj hm
    rw [hc]
    exact h k l (he ▸ hk)
  · exact h k m hm

theorem refl : CountersRise floor [] t t := fun _ l hl => .inl ⟨l, hl, le_rfl, by simp⟩

/-- A new entry. -/
theorem create {gs : List Grant} (h : CountersRise floor gs t t') (ht : t[key]? = none)
    (hc : floor ≤ l.fencingCounter) : CountersRise floor gs t (t'.insert key l) := by
  intro k m hk
  rw [OrdMap.get_insert] at hk
  split at hk
  · rename_i he
    obtain rfl := Option.some.inj hk
    exact .inr ⟨he ▸ ht, hc⟩
  · exact h k m hk

/-- A token is given out. -/
theorem take {terms : Terms} {g : Grant} (h : t[g.key]? = some l) (hm : l'.Mints terms g)
    (hc : l'.fencingCounter = l.fencingCounter) (hf : terms.forced = none) (hb : g.counter < u64Max) :
    CountersRise floor [g] t (t.insert g.key (l'.take terms g)) := by
  intro k m hk
  obtain ⟨htoken, hcounter⟩ := hm.token_eq hf hb
  rw [hc] at htoken
  rw [OrdMap.get_insert] at hk
  simp only [List.mem_singleton, forall_eq]
  split at hk
  · rename_i he
    obtain rfl := Option.some.inj hk
    exact .inl ⟨l, he ▸ h, by omega, fun _ => ⟨by omega, hcounter.ge⟩⟩
  · rename_i he
    exact .inl ⟨m, hk, le_rfl, fun hk => absurd hk he⟩

end CountersRise

theorem Step.countersRise {cfg : BrokerConfig} {floor : Nat} {t t' : LockTable} {a : Action}
    (h : Step cfg floor t a t') (hf : a.Unforced) (hb : ∀ g ∈ a.grants, g.counter < u64Max) :
    CountersRise floor a.grants t t' := by
  cases h with
  | create h hl => exact CountersRise.refl.create h hl.floor_le
  | setMax h _ _ => exact CountersRise.refl.put h rfl
  | stamp h _ => exact CountersRise.refl.put h rfl
  | grant h _ hm => exact .take h hm rfl hf (hb _ List.mem_cons_self)
  | grantHead h _ hg _ =>
    exact .take h hg.mints.pop rfl (PendingRequest.terms_forced hf _) (hb _ List.mem_cons_self)
  | finish h _ _ hg _ =>
    exact .take h hg.mints.pop rfl (PendingRequest.terms_forced hf _) (hb _ List.mem_cons_self)
  | advance h _ _ hg _ h' =>
    have htake : CountersRise floor _ t _ := .take h hg.mints.pop rfl (PendingRequest.terms_forced hf _)
      (hb _ List.mem_cons_self)
    rcases h' with h' | ⟨h', hl⟩
    · exact htake.put h' rfl
    · refine htake.create ?_ hl.floor_le
      rw [OrdMap.get_insert] at h'
      split at h'
      · cases h'
      · exact h'
  | enqueue h _ => exact CountersRise.refl.put h (by split <;> rfl)
  | withdraw h => exact CountersRise.refl.put h rfl
  | release h => exact CountersRise.refl.put h (by simp)
  | wipe h => exact CountersRise.refl.put h rfl
  | detach u =>
    intro k l' hk
    rw [Std.ExtTreeMap.getElem?_map] at hk
    obtain ⟨l, hl, rfl⟩ := Option.map_eq_some_iff.1 hk
    exact .inl ⟨l, hl, le_rfl, by simp [Action.grants]⟩
  | prune =>
    intro k l' hk
    rw [OrdMap.get_erase] at hk
    split at hk
    · cases hk
    · exact .inl ⟨l', hk, le_rfl, by simp [Action.grants]⟩

/-- Only reclaiming takes an entry away. -/
theorem Step.mem_of_mem {cfg : BrokerConfig} {floor : Nat} {t t' : LockTable} {a : Action}
    (h : Step cfg floor t a t') (hp : ¬a.Prunes) {k : String} (hk : k ∈ t) : k ∈ t' := by
  cases h with
  | prune => exact absurd trivial hp
  | _ => simp [hk]

theorem Step.grant_mem {cfg : BrokerConfig} {floor : Nat} {t t' : LockTable} {a : Action}
    (h : Step cfg floor t a t') {g : Grant} (hg : g ∈ a.grants) : g.key ∈ t := by
  cases h <;> simp only [Action.grants, List.mem_singleton, List.not_mem_nil] at hg <;> subst hg <;>
    exact OrdMap.mem_iff_get.2 ⟨_, ‹_›⟩

/-! ## Runs -/

/-- No waiter of the key has its token prescribed. -/
def LockState.Unseeded (_ : String) (l : LockState) : Prop :=
  ∀ e ∈ l.queue.entries, e.2.grantFencingSeed = none

theorem LockState.Unseeded.kept (cfg : BrokerConfig) :
    Kept cfg (fun p => p.grantFencingSeed = none) LockState.Unseeded where
  fresh hf := by
    intro e he
    simp [hf.queue] at he
  setMax h _ _ := h
  stamp h _ := h
  take h _ _ e he := h e (by simpa using he)
  pop h e he := h e (List.mem_of_mem_tail he)
  push h _ hp e he := (LinkedQueue.mem_pushBack he).elim (h e) (fun he => he ▸ hp)
  pushFirst h _ hp e he := (LinkedQueue.mem_pushFront he).elim (h e) (fun he => he ▸ hp)
  moved h hq _ _ h' e he := by
    rcases LinkedQueue.mem_pushBack he with he | rfl
    · exact h' e he
    · have hp := h _ (List.mem_of_mem_head? hq)
      exact hp
  removeWaiter h e he := h e (List.mem_of_mem_filter he)
  removeForKind h e he := h e (by simpa using he)
  wipe h := h
  detachOwner h := h

/-- Actions of requests without overrides, short of reclaiming keys. -/
def Action.Plain : Action → Prop
  | .grant _ terms => terms.forced = none
  | .enqueue _ p _ => p.grantFencingSeed = none
  | .prune _ => False
  | _ => True

theorem Action.Plain.queues {a : Action} (h : a.Plain) : a.Queues fun p => p.grantFencingSeed = none := by
  cases a <;> first | exact h | exact trivial

theorem Action.Plain.unforced {cfg : BrokerConfig} {floor : Nat} {t t' : LockTable} {a : Action} (ha : a.Plain)
    (h : Step cfg floor t a t') (ht : AllLocks LockState.Unseeded t) : a.Unforced := by
  have head : ∀ {g : Grant} {p : PendingRequest} {l : LockState}, t[g.key]? = some l → g.For p l →
      p.grantFencingSeed = none := by
    intro g p l hl hg
    obtain ⟨x, hx⟩ := hg.front
    exact ht _ l hl (x, p) (List.mem_of_mem_head? hx)
  cases h with
  | grant => exact ha
  | grantHead hl _ hg _ => exact head hl hg
  | finish hl _ _ hg _ => exact head hl hg
  | advance hl _ _ hg _ _ => exact head hl hg
  | _ => trivial

/-- Every token was minted below the end of `u64`. -/
def Bounded (gs : List Grant) : Prop := ∀ g ∈ gs, g.counter < u64Max

/-- Tokens of one key increase; the newest grant comes first. -/
def Increasing (gs : List Grant) : Prop :=
  gs.Pairwise fun newer older => newer.key = older.key → older.token < newer.token

/-- What is known of the tokens given out so far. -/
structure Broker.Fenced (b : Broker) : Prop where
  unseeded : AllLocks LockState.Unseeded b.locks
  watermark : ∀ g ∈ b.grants, g.token ≤ b.fencingWatermark
  counters : Bounded b.grants → ∀ g ∈ b.grants, ∀ l, b.locks[g.key]? = some l → g.token ≤ l.fencingCounter
  increasing : Bounded b.grants → Increasing b.grants

theorem Action.grants_cases (a : Action) : a.grants = [] ∨ ∃ g, a.grants = [g] := by
  cases a <;> simp [Action.grants]

namespace Broker

variable {env : Env} {given : Option String} {b b' : Broker}

/-- The table and the tokens in the middle of a run that started at `b`. -/
structure FencedAt (b : Broker) (log : List Action) (t : LockTable) : Prop where
  unseeded : AllLocks LockState.Unseeded t
  counters : Bounded ((log.flatMap Action.grants).reverse ++ b.grants) →
    ∀ g ∈ (log.flatMap Action.grants).reverse ++ b.grants, ∀ l, t[g.key]? = some l →
      g.token ≤ l.fencingCounter
  /-- the keys granted on in this run have their entries still -/
  there : ∀ g ∈ log.flatMap Action.grants, g.key ∈ t
  increasing : Bounded ((log.flatMap Action.grants).reverse ++ b.grants) →
    Increasing ((log.flatMap Action.grants).reverse ++ b.grants)

theorem FencedAt.step (hb : b.Fenced) {log : List Action} {t t' : LockTable} {a : Action} (ha : a.Plain)
    (hs : Step b.config b.fencingWatermark t a t') (h : b.FencedAt log t) : b.FencedAt (log ++ [a]) t' := by
  have hlog : ((log ++ [a]).flatMap Action.grants).reverse ++ b.grants =
      a.grants.reverse ++ ((log.flatMap Action.grants).reverse ++ b.grants) := by simp
  have hprune : ¬a.Prunes := by cases a <;> first | exact id | exact fun _ => ha
  have hrise (hB : Bounded (a.grants.reverse ++ ((log.flatMap Action.grants).reverse ++ b.grants))) :
      CountersRise b.fencingWatermark a.grants t t' :=
    hs.countersRise (ha.unforced hs h.unseeded) fun g hg => hB g (by simp [hg])
  refine ⟨(LockState.Unseeded.kept b.config).step hs ha.queues h.unseeded, ?_, ?_, ?_⟩ <;> try rw [hlog]
  · intro hB g hg l' hl'
    have hold := h.counters fun g hg => hB g (List.mem_append_right _ hg)
    rcases hrise hB _ l' hl' with ⟨l, hl, hle, hnew⟩ | ⟨hnone, hfloor⟩
    · rcases List.mem_append.1 hg with hg | hg
      · exact (hnew g (List.mem_reverse.1 hg) rfl).2
      · exact (hold g hg l hl).trans hle
    · -- the entry is new, so no token of this run is its key's
      have absent : g.key ∉ t := by rw [OrdMap.mem_iff_get, hnone]; simp
      simp only [List.mem_append, List.mem_reverse] at hg
      rcases hg with hg | hg | hg
      · exact absurd (hs.grant_mem hg) absent
      · exact absurd (h.there g hg) absent
      · exact (hb.watermark g hg).trans hfloor
  · intro g hg
    rw [List.flatMap_append, List.mem_append] at hg
    rcases hg with hg | hg
    · exact hs.mem_of_mem hprune (h.there g hg)
    · exact hs.mem_of_mem hprune (hs.grant_mem (by simpa using hg))
  · intro hB
    have hBold : Bounded ((log.flatMap Action.grants).reverse ++ b.grants) :=
      fun g hg => hB g (List.mem_append_right _ hg)
    rcases a.grants_cases with hn | ⟨g, hn⟩
    · rw [hn]; exact h.increasing hBold
    · rw [hn] at hB ⊢
      refine List.pairwise_cons.2 ⟨fun g' hg' he => ?_, h.increasing hBold⟩
      -- the token is above the counter, which bounds the older ones
      obtain ⟨l, hl⟩ := OrdMap.mem_iff_get.1 (hs.grant_mem (g := g) (by simp [hn]))
      obtain ⟨l', hl'⟩ := OrdMap.mem_iff_get.1 (hs.mem_of_mem hprune (OrdMap.mem_iff_get.2 ⟨l, hl⟩))
      rcases hrise (by rw [hn]; exact hB) _ l' hl' with ⟨m, hm, _, hnew⟩ | ⟨hnone, _⟩
      · exact (h.counters hBold g' hg' m (by rw [← he]; exact hm)).trans_lt (hnew g (by simp [hn]) rfl).1
      · rw [hl] at hnone; cases hnone

theorem Fenced.does (hb : b.Fenced) (h : b.Does env given Action.Plain b') : b'.Fenced := by
  obtain ⟨as, has⟩ := h.run
  have hat : b.FencedAt ([] ++ as) b'.locks := by
    refine has.trace.inv_log (fun log t a t' hm hs => FencedAt.step hb (has.ok a hm) hs) ?_
    exact ⟨hb.unseeded, by simpa using hb.counters, by simp, by simpa using hb.increasing⟩
  rw [List.nil_append] at hat
  refine ⟨hat.unseeded, fun g hg => ?_, ?_, ?_⟩
  · rw [has.grants, List.mem_append, List.mem_reverse] at hg
    rw [has.watermark]
    rcases hg with hg | hg
    · exact token_le_raised hg
    · exact (hb.watermark g hg).trans (le_raised _ _)
  · rw [has.grants]; exact hat.counters
  · rw [has.grants]; exact hat.increasing

/-- Reclaiming keys leaves the rest as it is. -/
theorem Fenced.prune (hb : b.Fenced) (now : Instant) : (b.prune env now).Fenced := by
  have hrest : (b.prune env now).grants = b.grants ∧
      (b.prune env now).fencingWatermark = b.fencingWatermark := by
    unfold Broker.prune
    split
    · exact ⟨rfl, rfl⟩
    · split <;> exact ⟨rfl, rfl⟩
  refine ⟨fun k l hl => hb.unseeded k l (get_of_prune hl), ?_, ?_, ?_⟩
  · rw [hrest.1, hrest.2]; exact hb.watermark
  · rw [hrest.1]; exact fun hB g hg l hl => hb.counters hB g hg l (get_of_prune hl)
  · rw [hrest.1]; exact hb.increasing

end Broker

/-- Requests carry no grant overrides. -/
def Op.Plain : Op → Prop
  | .request _ _ overrides => overrides = {}
  | _ => True

theorem Action.Arrives.plain {client : ClientId} {uuid : String} {keys : List String} {a : Action}
    (h : a.Arrives client uuid {} keys) : a.Plain := by
  cases a with
  | grant g terms =>
    obtain ⟨_, _, _, i, _, hi⟩ := h
    exact hi
  | enqueue k p f => exact h.2.2.1
  | prune => exact h
  | _ => trivial

theorem Broker.Wakes.plain {taken : String → String → Prop} {a : Action} (h : Broker.Wakes taken a) : a.Plain := by
  rcases h with h | h <;> cases a <;> first | exact trivial | exact False.elim h

theorem Broker.Fenced.apply {env : Env} {b : Broker} (hb : b.Fenced) {op : Op} (hop : op.Plain) :
    (b.apply env op).Fenced := by
  cases op with
  | tickTtl now =>
    have hwake : b.Does env none (Wakes fun _ _ => False) _ := tickTtl_wake_does now
    exact (hb.does (hwake.mono fun _ h => h.plain)).prune now
  | request client r overrides =>
    obtain rfl : overrides = {} := hop
    exact hb.does ((apply_does (.request client r {})).mono fun a h => h.elim (·.plain) (·.plain))
  | dropClient client => exact hb.does ((apply_does (.dropClient client)).mono fun a h => h.plain)
  | detachLockOwner u =>
    exact hb.does ((apply_does (.detachLockOwner u)).mono fun a h => by cases a <;> trivial)
  | registerClient => exact hb.does ((apply_does .registerClient).mono fun a h => h.elim)
  | registerClientWithId id => exact hb.does ((apply_does (.registerClientWithId id)).mono fun a h => h.elim)
  | detachLockFromClient client u =>
    exact hb.does ((apply_does (.detachLockFromClient client u)).mono fun a h => h.elim)

/-! ## The tokens that clients are told -/

namespace Ledger

variable {v v' : Ledger} {env : Env}

/-- Each of the keys was granted under the uuid, with the token given for it. -/
def Minted (v : Ledger) (keys : List String) (u : String) (token : String → Option Nat) : Prop :=
  ∀ k ∈ keys, ∃ t, token k = some t ∧ (k, u, t) ∈ v.past.minted

theorem Minted.mono {keys : List String} {u : String} {token : String → Option Nat} (h : v.Minted keys u token)
    (hm : v.past.minted ⊆ v'.past.minted) : v'.Minted keys u token := fun k hk => by
  obtain ⟨t, ht, hmem⟩ := h k hk
  exact ⟨t, ht, hm hmem⟩

/-- One more key is granted. -/
theorem Minted.hand {key u : String} {token : String → Option Nat} {keys : List String} {p : PendingRequest}
    (h : v.Minted keys u token) (t : Nat) :
    (v.hand key p u t).Minted (keys ++ [key]) u fun k => if key = k then some t else token k := by
  intro k hk
  by_cases he : key = k
  · subst he
    exact ⟨t, if_pos rfl, List.mem_cons_self⟩
  · obtain ⟨t', ht', hmem⟩ := h k ((List.mem_append.1 hk).resolve_right fun hk => he (List.mem_singleton.1 hk).symm)
    exact ⟨t', (if_neg he).trans ht', List.mem_cons_of_mem _ hmem⟩

/-- The tokens told to clients, and those waiting composites have collected, were given out. -/
structure Tallies (v : Ledger) : Prop where
  told : ∀ n ∈ v.past.notices, ∃ a, n.response.award = some a ∧ v.Minted a.lock.keys a.lockUuid a.token
  waits {q x : String} {p : PendingRequest} {c : Composite} : v.Waits q x p → p.kind = .composite c →
    v.Minted c.grantedKeys c.compositeLockUuid (c.grantedTokens[·]?)

/-- Waiters go and grants are added. -/
theorem Tallies.mono (h : v.Tallies) (hq : ∀ {k x p}, v'.Waits k x p → v.Waits k x p)
    (hn : v'.past.notices = v.past.notices) (hm : v.past.minted ⊆ v'.past.minted) : v'.Tallies where
  told n hmem := by
    obtain ⟨a, ha, hminted⟩ := h.told n (hn ▸ hmem)
    exact ⟨a, ha, hminted.mono hm⟩
  waits hw hc := (h.waits (hq hw) hc).mono hm

/-- A client is told. -/
theorem Tallies.tell (h : v.Tallies) {c : ClientId} {r : Response} {a : Award} (ha : r.award = some a)
    (hm : v.Minted a.lock.keys a.lockUuid a.token) : (v.tell c r).Tallies where
  told := List.forall_mem_cons.2 ⟨⟨a, ha, hm⟩, h.told⟩
  waits := h.waits

theorem Tallies.hand (h : v.Tallies) (key u : String) (p : PendingRequest) (token : Nat) :
    (v.hand key p u token).Tallies :=
  h.mono (fun hw => (pop_sublist v key _).subset hw) rfl (List.subset_cons_self _ _)

theorem Grants.tallies (h : v.Grants env v') (hv : v.Tallies) : v'.Tallies := by
  cases h with
  | idle _ h =>
    subst h
    exact ⟨hv.told, hv.waits⟩
  | @serve token key u p rest n a d hq hlast hu hn ha hd h =>
    subst h
    have hhand : (v.hand key p u token).Minted (p.wants key).keys u fun k =>
        if key = k then some token else p.collected k := by
      cases hc : p.kind with
      | composite c =>
        obtain rfl := hu.composite hc
        simpa [PendingRequest.wants, PendingRequest.collected, hc, hlast c hc] using
          (hv.waits (waits_head hq) hc).hand (p := p) token
      | _ =>
        have hnil : v.Minted [] u p.collected := fun _ hk => by cases hk
        have hone : (v.hand key p u token).Minted ([] ++ [key]) u _ := hnil.hand token
        simpa [PendingRequest.wants, hc] using hone
    have htold := (hv.hand key u p token).tell (c := p.client) ha.award hhand
    exact ⟨htold.told, htold.waits⟩
  | @advance token n key next p rest c more hq hc hr hn h =>
    subst h
    refine ⟨(hv.hand key c.compositeLockUuid p token).told, fun hw hc' => ?_⟩
    rcases waits_of_push hw with hw | ⟨_, _, rfl⟩
    · exact (hv.hand key c.compositeLockUuid p token).waits hw hc'
    · obtain rfl := PendingKind.composite.inj hc'
      intro k hk
      obtain ⟨t, ht, hm⟩ := (hv.waits (waits_head hq) hc).hand (p := p) token k hk
      exact ⟨t, (OrdMap.get_insert ..).trans ht, hm⟩

theorem Enters.tallies {op : Op} (h : v.Enters env op v') (hv : v.Tallies) : v'.Tallies := by
  cases h with
  | still _ => exact hv
  | @award lock kept token client r overrides u a d n hr hu hn ha hd =>
    have hgive : (v.give lock.keys lock.rwKind u fun k => ⟨client, kept, token k⟩).Tallies :=
      hv.mono id rfl (List.subset_append_right _ _)
    have htold := hgive.tell (c := client) ha.award fun k hk => ⟨token k, if_pos hk,
      List.mem_append_left _ (List.mem_reverse.2 (List.mem_map.2 ⟨k, hk, rfl⟩))⟩
    exact ⟨htold.told, htold.waits⟩
  | enqueue _ hstarts =>
    refine ⟨hv.told, fun hw hc => ?_⟩
    rcases waits_of_push hw with hw | ⟨_, _, rfl⟩
    · exact hv.waits hw hc
    · -- a request that has just come has no key yet
      rw [(hstarts _ hc).2.2.2.2.1]
      exact fun _ hk => by cases hk

end Ledger

theorem Broker.Runs.tallies {cfg : BrokerConfig} {Ok : Env → Broker → Op → Prop} {b : Broker} (h : Runs cfg Ok b) :
    b.ledger.Tallies := by
  induction h with
  | new =>
    refine ⟨by simp, fun hw => ?_⟩
    simp [Ledger.Waits] at hw
  | @apply b env op _ h ih =>
    obtain ⟨v₁, v₂, ho, he, hc⟩ := apply_turns env (.reachable h.reachable) op
    have hpast : v₁.past = b.ledger.past := ho.rest.2
    have h₁ : v₁.Tallies :=
      ih.mono (fun hw => (ho.queue_sublist _).subset hw) (congrArg Past.notices hpast) (hpast ▸ List.Subset.refl _)
    exact hc.inv (he.tallies h₁) Ledger.Grants.tallies

/-- Every key of a lock a client is told it has was granted under the lock's uuid, with the token it is told. -/
theorem Broker.Runs.told_granted {cfg : BrokerConfig} {Ok : Env → Broker → Op → Prop} {b : Broker} (h : Runs cfg Ok b)
    {s : Sent} (hs : s ∈ b.sent) (hr : s.response.awarded ≠ none) :
    ∃ a, s.response.award = some a ∧
      ∀ k ∈ a.lock.keys, ∃ g ∈ b.grants, g.key = k ∧ g.lockUuid = a.lockUuid ∧ a.token k = some g.token := by
  obtain ⟨x, hx⟩ := Option.ne_none_iff_exists'.1 hr
  have hnotice : (⟨s.client, s.response, s.locks.stakeAt⟩ : Notice) ∈ b.ledger.past.notices :=
    List.mem_filterMap.2 ⟨s, hs, by rw [Sent.notice, hx]; rfl⟩
  obtain ⟨a, ha, hm⟩ := h.tallies.told _ hnotice
  refine ⟨a, ha, fun k hk => ?_⟩
  obtain ⟨t, ht, hmem⟩ := hm k hk
  obtain ⟨g, hg, he⟩ := List.mem_map.1 hmem
  simp only [Prod.mk.injEq] at he
  obtain ⟨rfl, hu, rfl⟩ := he
  exact ⟨g, hg, rfl, hu, ht⟩

/-! ## Standalone brokers -/

/-- The states of a broker that no replicated log drives: every operation with
a clock, uuids and hash order of its own, no request with overrides. -/
def Broker.Standalone (cfg : BrokerConfig) : Broker → Prop := Runs cfg fun _ _ op => op.Plain

/-- **Standalone fencing.** The tokens given out on a key strictly increase in
the order of the grants, as long as no counter reaches the end of `u64`,
whatever the clock says and whatever keys are reclaimed in between; the
watermark is always an upper bound of every token given out; and the tokens a client
is told with a lock are those its keys were granted with. -/
theorem Broker.Standalone.fencing_increases {cfg : BrokerConfig} {b : Broker} (h : Standalone cfg b) :
    ((∀ g ∈ b.grants, g.counter < u64Max) →
      b.grants.Pairwise fun newer older => newer.key = older.key → older.token < newer.token) ∧
    (∀ g ∈ b.grants, g.token ≤ b.fencingWatermark) ∧
    ∀ s ∈ b.sent, s.response.awarded ≠ none → ∃ a, s.response.award = some a ∧
      ∀ k ∈ a.lock.keys, ∃ g ∈ b.grants, g.key = k ∧ g.lockUuid = a.lockUuid ∧ a.token k = some g.token := by
  have hf : b.Fenced := by
    induction h with
    | new =>
      refine ⟨fun k l hl => ?_, ?_, ?_, ?_⟩
      · simp [Broker.new, BrokerState.new] at hl
      · simp [Broker.new]
      · simp [Broker.new]
      · exact fun _ => List.Pairwise.nil
    | apply env op hop _ ih => exact ih.apply hop
  exact ⟨hf.increasing, hf.watermark, fun _ hs hr => Runs.told_granted h hs hr⟩

/-- A key locked, released, reclaimed and locked again while the clock stands
still. -/
theorem Broker.Standalone.fencing_increases_reclaimed :
    ∃ b, Broker.Standalone { Sample.config with idleKeyGrace := 1 } b ∧ b.grants.map (·.token) = [2, 1] ∧
      (b.grants.Pairwise fun newer older => newer.key = older.key → older.token < newer.token) ∧
      ∀ g ∈ b.grants, g.token ≤ b.fencingWatermark := by
  let ops := [Sample.ask 1 (Sample.lock "r" "k"), Sample.ask 1 (Sample.unlock "s" "k" "uu"), .tickTtl 10,
    Sample.ask 1 (Sample.lock "t" "k")]
  have hb : Broker.Standalone { Sample.config with idleKeyGrace := 1 }
      ((Broker.new { Sample.config with idleKeyGrace := 1 }).applyAll Sample.env ops) :=
    Broker.Runs.applyAll Sample.env ops .new (by simp [Broker.Runs.Meets, ops, Op.Plain, Sample.ask])
  have htokens : ((Broker.new { Sample.config with idleKeyGrace := 1 }).applyAll Sample.env ops).grants.map
      (·.token) = [2, 1] := by decide +kernel
  have hbound : ∀ g ∈ ((Broker.new { Sample.config with idleKeyGrace := 1 }).applyAll Sample.env ops).grants,
      g.counter < u64Max := by decide +kernel
  have hfencing := Broker.Standalone.fencing_increases hb
  exact ⟨_, hb, htokens, hfencing.1 hbound, hfencing.2.1⟩

end LiveMutex
