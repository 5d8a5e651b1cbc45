/-
No request that waits is lost, and none is granted twice. A request that joins is,
from then on, in exactly one place of one queue, or it was told once that it has its
lock, or its client was dropped while it waited.

This rests on one fact about the handles: what a handle notes as pending does wait,
and for that client. Otherwise a client that goes could take another's request with it.
-/
import LiveMutex.LedgerFacts
import LiveMutex.Sample
import LiveMutex.Restored

namespace LiveMutex

namespace Ledger

variable {v v' : Ledger} {env : Env} {k x : String} {p : PendingRequest} {c : ClientId} {n : Nat}

/-- No request of this uuid waits. -/
def Absent (v : Ledger) (x : String) : Prop := ∀ k p, ¬v.Waits k x p

/-- Every uuid waits in one place, under its own name, and the handles note as
pending what waits for their client. -/
structure Filed (v : Ledger) : Prop where
  distinct : v.Distinct
  keyed : ∀ {k x p}, v.Waits k x p → x = p.requestUuid
  once : ∀ {k k' x p p'}, v.Waits k x p → v.Waits k' x p' → k = k' ∧ p = p'
  pending : ∀ {c h k x}, v.handle c = some h → (k, x) ∈ h.pendingRequestUuids → ∃ p, v.Waits k x p ∧ p.client = c

/-- The request waits, and was not told since; or it was told once, and does not wait. -/
def Accounts (v : Ledger) (x : String) (c : ClientId) (n : Nat) : Prop :=
  (∃ k p, v.Waits k x p ∧ p.client = c) ∧ v.told.count x = n ∨ v.Absent x ∧ v.told.count x = n + 1

/-- The request does not wait, and was not told. -/
def Gone (v : Ledger) (x : String) (n : Nat) : Prop := v.Absent x ∧ v.told.count x = n

/-- Nothing happens to the request `x`. -/
def Leaves (v : Ledger) (x : String) (v' : Ledger) : Prop :=
  (∀ k p, v'.Waits k x p ↔ v.Waits k x p) ∧ v'.told.count x = v.told.count x

namespace Leaves

theorem absent (h : v.Leaves x v') (ha : v.Absent x) : v'.Absent x := fun k p hw => ha k p ((h.1 k p).1 hw)

theorem gone (h : v.Leaves x v') (hg : v.Gone x n) : v'.Gone x n := ⟨h.absent hg.1, h.2.trans hg.2⟩

theorem accounts (h : v.Leaves x v') (ha : v.Accounts x c n) : v'.Accounts x c n := by
  rcases ha with ⟨⟨k, p, hw, hc⟩, hn⟩ | ⟨ha, hn⟩
  · exact .inl ⟨⟨k, p, (h.1 k p).2 hw, hc⟩, h.2.trans hn⟩
  · exact .inr ⟨h.absent ha, h.2.trans hn⟩

end Leaves

/-! ## What happens to the files -/

/-- Who waits has left at most, and what is still pending still waits. -/
theorem Filed.shrink (h : v.Filed) (hq : ∀ k, (v'.queue k).Sublist (v.queue k))
    (hh : ∀ c h', v'.handle c = some h' → ∀ k x, (k, x) ∈ h'.pendingRequestUuids →
      ∃ h, v.handle c = some h ∧ (k, x) ∈ h.pendingRequestUuids ∧ ∀ p, p.client = c → v.Waits k x p → v'.Waits k x p) :
    v'.Filed where
  distinct := h.distinct.sub hq
  keyed hw := h.keyed ((hq _).subset hw)
  once hw hw' := h.once ((hq _).subset hw) ((hq _).subset hw')
  pending hc hp := by
    obtain ⟨handle, hhandle, hmem, hstay⟩ := hh _ _ hc _ _ hp
    obtain ⟨p, hw, hcl⟩ := h.pending hhandle hmem
    exact ⟨p, hstay p hcl hw, hcl⟩

theorem Filed.congr (h : v.Filed) (hq : v'.queue = v.queue) (hh : v'.handle = v.handle) : v'.Filed :=
  h.shrink (fun k => by rw [hq]) fun _ h' hc _ _ hm => ⟨h', hh ▸ hc, hm, fun _ _ hw => by rwa [Waits, hq]⟩

/-- Nothing happens to the queues, and no handle notes more. -/
structure Quiet (v v' : Ledger) : Prop where
  queue : v'.queue = v.queue
  told : v'.told = v.told
  pending : ∀ c h', v'.handle c = some h' → h'.pendingRequestUuids = [] ∨
    ∃ h, v.handle c = some h ∧ h'.pendingRequestUuids = h.pendingRequestUuids

namespace Quiet

theorem leaves (h : v.Quiet v') (x : String) : v.Leaves x v' :=
  ⟨fun k p => by rw [Waits, Waits, h.queue], by rw [h.told]⟩

theorem filed (h : v.Quiet v') (hv : v.Filed) : v'.Filed := by
  refine hv.shrink (fun k => by rw [h.queue]) fun c h' hc k x hm => ?_
  rcases h.pending c h' hc with he | ⟨handle, hhandle, he⟩
  · rw [he] at hm
    cases hm
  · exact ⟨handle, hhandle, he ▸ hm, fun p _ hw => by rwa [Waits, h.queue]⟩

theorem of_handle (hq : v'.queue = v.queue) (ht : v'.told = v.told) (hh : v'.handle = v.handle) : v.Quiet v' :=
  ⟨hq, ht, fun _ h' hc => .inr ⟨h', hh ▸ hc, rfl⟩⟩

theorem asked (v : Ledger) (n : Nat) : v.Quiet (v.asked n) := .of_handle rfl rfl rfl

theorem note (v : Ledger) (a : ClientId) (f : ClientHandle → ClientHandle)
    (hf : ∀ h, (f h).pendingRequestUuids = h.pendingRequestUuids) : v.Quiet (v.note a f) := by
  refine ⟨rfl, rfl, fun c h' hc => .inr ?_⟩
  simp only [Ledger.note] at hc
  split at hc
  · obtain ⟨h, hh, rfl⟩ := Option.map_eq_some_iff.1 hc
    exact ⟨h, hh, hf h⟩
  · exact ⟨h', hc, rfl⟩

end Quiet

theorem requestCut_waiter (v : Ledger) (client : ClientId) (r : Request) (k x : String) (p : PendingRequest) :
    (v.requestCut client r).waiter k x p = false := by
  unfold requestCut unlockCut
  split <;> rfl

/-! ## A queue moves -/

/-- The head is nowhere else. -/
theorem Filed.waits_pop (hv : v.Filed) {key y : String} {q : PendingRequest} {rest : List (String × PendingRequest)}
    (hq : v.queue key = (y, q) :: rest) : (v.pop key).Waits k x p ↔ v.Waits k x p ∧ x ≠ y := by
  refine (Ledger.waits_pop hv.distinct hq).trans (and_congr_right fun hw => not_congr ?_)
  refine and_iff_right_of_imp fun he => ?_
  subst he
  exact (hv.once hw (waits_head hq)).1

theorem Absent.waits_push {key y : String} {q : PendingRequest} (ha : v.Absent q.requestUuid) (first : Bool) :
    (v.push key q first).Waits k y p ↔ v.Waits k y p ∨ k = key ∧ y = q.requestUuid ∧ p = q := by
  refine ⟨waits_of_push, fun h => ?_⟩
  rcases h with hw | ⟨rfl, rfl, rfl⟩
  · exact hw.push _ _ _
  · exact waits_push_self first (ha _)

/-- The head leaves its queue, and its client's handle no longer notes it as pending. -/
theorem Filed.hand (hv : v.Filed) {key u : String} {token : Nat} {rest : List (String × PendingRequest)}
    (hq : v.queue key = (p.requestUuid, p) :: rest) : (v.hand key p u token).Filed := by
  refine hv.shrink (fun k => ?_) fun c h' hc k x hm => ?_
  · exact pop_sublist v key k
  · -- a pending note for the head is its own client's, and that one is gone
    have hstay : ¬((k, x) = (key, p.requestUuid) ∧ c = p.client) → ∀ q : PendingRequest, q.client = c →
        v.Waits k x q → (v.pop key).Waits k x q := by
      intro hne q hqc hw
      refine (hv.waits_pop hq).2 ⟨hw, fun he => hne ?_⟩
      subst he
      obtain ⟨rfl, rfl⟩ := hv.once hw (waits_head hq)
      exact ⟨rfl, hqc.symm⟩
    change (if p.client = c then (v.handle c).map _ else v.handle c) = some h' at hc
    by_cases hpc : p.client = c
    · rw [if_pos hpc] at hc
      obtain ⟨h, hh, rfl⟩ := Option.map_eq_some_iff.1 hc
      obtain ⟨hm, hne⟩ := List.mem_filter.1 hm
      refine ⟨h, hh, hm, hstay fun hand => ?_⟩
      obtain ⟨hk, hx⟩ := Prod.mk.inj hand.1
      simp [hk, hx] at hne
    · rw [if_neg hpc] at hc
      exact ⟨h', hc, hm, hstay fun hand => hpc hand.2.symm⟩

/-- A request of a new uuid is queued. -/
theorem Filed.enqueue (hv : v.Filed) {key : String} {first : Bool} (ha : v.Absent p.requestUuid) :
    (v.enqueue key p first).Filed where
  distinct := Distinct.push hv.distinct key p first
  keyed hw := by
    rcases (ha.waits_push first).1 hw with hw | ⟨_, hx, rfl⟩
    · exact hv.keyed hw
    · exact hx
  once hw hw' := by
    rcases (ha.waits_push first).1 hw with hold | ⟨rfl, rfl, rfl⟩ <;>
      rcases (ha.waits_push first).1 hw' with hold' | ⟨rfl, hx, rfl⟩
    · exact hv.once hold hold'
    · exact absurd (hx ▸ hold) (ha _ _)
    · exact absurd hold' (ha _ _)
    · exact ⟨rfl, rfl⟩
  pending {c h' k x} hc hm := by
    have hold : ∀ h, v.handle c = some h → (k, x) ∈ h.pendingRequestUuids →
        ∃ q, (v.enqueue key p first).Waits k x q ∧ q.client = c := by
      intro h hh hm
      obtain ⟨q, hw, hqc⟩ := hv.pending hh hm
      exact ⟨q, (ha.waits_push first).2 (.inl hw), hqc⟩
    change (if p.client = c then (v.handle c).map _ else v.handle c) = some h' at hc
    by_cases hpc : p.client = c
    · rw [if_pos hpc] at hc
      obtain ⟨h, hh, rfl⟩ := Option.map_eq_some_iff.1 hc
      rcases List.mem_append.1 hm with hm | hm
      · exact hold h hh hm
      · obtain ⟨rfl, rfl⟩ := Prod.mk.inj (List.mem_singleton.1 hm)
        exact ⟨p, (ha.waits_push first).2 (.inr ⟨rfl, rfl, rfl⟩), hpc⟩
    · rw [if_neg hpc] at hc
      exact hold h' hc hm

/-! ## Waiters are granted -/

/-- The head leaves its queue for good. -/
theorem absent_pop (hv : v.Filed) {key : String} {rest : List (String × PendingRequest)}
    (hq : v.queue key = (x, p) :: rest) : (v.pop key).Absent x :=
  fun _ _ hw => ((hv.waits_pop hq).1 hw).2 rfl

/-- While waiters are granted, the files stay in order, and a request that waits
is told once or waits on. -/
structure Conserves (x : String) (c : ClientId) (v v' : Ledger) : Prop where
  filed : v'.Filed
  accounts : ∀ n, v.Accounts x c n → v'.Accounts x c n
  gone : ∀ n, v.Gone x n → v'.Gone x n

namespace Conserves

theorem of_leaves (hf : v'.Filed) (h : v.Leaves x v') : Conserves x c v v' :=
  ⟨hf, fun _ => h.accounts, fun _ => h.gone⟩

theorem of_quiet (hv : v.Filed) (h : v.Quiet v') : Conserves x c v v' := .of_leaves (h.filed hv) (h.leaves x)

theorem refl (hv : v.Filed) : Conserves x c v v := ⟨hv, fun _ h => h, fun _ h => h⟩

theorem trans {v'' : Ledger} (h : Conserves x c v v') (h' : Conserves x c v' v'') : Conserves x c v v'' :=
  ⟨h'.filed, fun n ha => h'.accounts n (h.accounts n ha), fun n hg => h'.gone n (h.gone n hg)⟩

theorem asked (h : Conserves x c v v') (n : Nat) : Conserves x c v (v'.asked n) :=
  h.trans (.of_quiet h.filed (.asked v' n))

end Conserves

/-- Of the request that is handed a key, whether it has its client and has not been told. -/
theorem Accounts.of_waits (hv : v.Filed) (hw : v.Waits k x p) (ha : v.Accounts x c n) :
    p.client = c ∧ v.told.count x = n := by
  rcases ha with ⟨⟨k', p', hw', hc⟩, hn⟩ | ⟨ha, _⟩
  · exact ⟨(hv.once hw hw').2 ▸ hc, hn⟩
  · exact absurd hw (ha k p)

theorem Gone.not_waits (hg : v.Gone x n) : ¬v.Waits k x p := hg.1 k p

theorem serve_conserves (hv : v.Filed) {key u : String} {token : Nat} {rest : List (String × PendingRequest)}
    {a : Response} {d : Option (DeadlineKey × DeadlineEntry)} (hq : v.queue key = (p.requestUuid, p) :: rest)
    (ha : a.awarded = some p.requestUuid) : Conserves x c v (v.serve key p u token a d) := by
  have hfiled : (v.serve key p u token a d).Filed := (hv.hand hq).congr rfl rfl
  have htold : (v.serve key p u token a d).told = p.requestUuid :: v.told := told_tell _ _ ha
  by_cases hx : p.requestUuid = x
  · subst hx
    refine ⟨hfiled, fun n ha => .inr ⟨absent_pop hv hq, ?_⟩, fun n hg => absurd (waits_head hq) hg.not_waits⟩
    rw [← (ha.of_waits hv (waits_head hq)).2, htold]
    exact List.count_cons_self
  · refine .of_leaves hfiled ⟨fun k q => (hv.waits_pop hq).trans (and_iff_left (Ne.symm hx)), ?_⟩
    rw [htold]
    exact List.count_cons_of_ne hx

theorem advance_conserves (hv : v.Filed) {key next : String} {a : Composite} {token : Nat}
    {rest : List (String × PendingRequest)} (hq : v.queue key = (p.requestUuid, p) :: rest) :
    Conserves x c v (v.advance key next p a token) := by
  have hnew : (v.hand key p a.compositeLockUuid token).Absent (p.moved (a.advance key token)).requestUuid :=
    absent_pop hv hq
  have hfiled : (v.advance key next p a token).Filed := (hv.hand hq).enqueue hnew
  have hpush : ∀ k y q, (v.advance key next p a token).Waits k y q ↔
      v.Waits k y q ∧ y ≠ p.requestUuid ∨ k = next ∧ y = p.requestUuid ∧ q = p.moved (a.advance key token) :=
    fun k y q => (hnew.waits_push false).trans (or_congr_left (hv.waits_pop hq))
  by_cases hx : p.requestUuid = x
  · subst hx
    refine ⟨hfiled, fun n ha => .inl ?_, fun n hg => absurd (waits_head hq) hg.not_waits⟩
    obtain ⟨hc, hn⟩ := ha.of_waits hv (waits_head hq)
    exact ⟨⟨next, p.moved (a.advance key token), (hpush _ _ _).2 (.inr ⟨rfl, rfl, rfl⟩), hc⟩, hn⟩
  · refine .of_leaves hfiled ⟨fun k q => (hpush k x q).trans ?_, rfl⟩
    simp [Ne.symm hx]

theorem Grants.conserves (h : v.Grants env v') (hv : v.Filed) : Conserves x c v v' := by
  cases h with
  | idle _ h =>
    subst h
    exact .of_quiet hv (.asked v _)
  | serve token hq _ _ _ ha _ h =>
    subst h
    exact (serve_conserves hv hq ha.awarded).asked _
  | advance token n hq _ _ _ h =>
    subst h
    exact (advance_conserves hv hq).asked n

theorem Cascade.conserves (h : v.Cascade env v') (hv : v.Filed) : Conserves x c v v' := by
  induction h with
  | refl => exact .refl hv
  | tail _ hs ih => exact ih.trans (hs.conserves ih.filed)

/-! ## A client goes -/

/-- A client that goes takes its own requests along and no others. -/
theorem waits_drop (hv : v.Filed) {a : ClientId} (hw : v.Waits k x p) (ha : p.client ≠ a) :
    (v.drop a).Waits k x p := by
  unfold drop
  split
  · exact waits_cut.2 ⟨hw, decide_eq_false ha⟩
  · rename_i h hh
    refine waits_cut.2 ⟨hw, decide_eq_false fun hm => ha ?_⟩
    obtain ⟨q, hq, hqa⟩ := hv.pending hh hm
    exact (hv.once hw hq).2 ▸ hqa

theorem Filed.drop (hv : v.Filed) (a : ClientId) : (v.drop a).Filed := by
  refine hv.shrink (drop_sublist v a) fun c h hc k x hm => ?_
  obtain ⟨hh, hne⟩ := drop_handle hc
  exact ⟨h, hh, hm, fun p hpc hw => waits_drop hv hw (hpc ▸ hne)⟩

theorem Absent.drop (h : v.Absent x) (a : ClientId) : (v.drop a).Absent x :=
  fun k p hw => h k p ((drop_sublist v a k).subset hw)

theorem Gone.drop (h : v.Gone x n) (a : ClientId) : (v.drop a).Gone x n :=
  ⟨h.1.drop a, (told_of_past (drop_past v a)).symm ▸ h.2⟩

/-- A request is there after a client has gone, unless it was the client's. -/
theorem Accounts.drop (hv : v.Filed) (h : v.Accounts x c n) (a : ClientId) :
    (v.drop a).Accounts x c n ∨ a = c ∧ (v.drop a).Gone x n := by
  rcases h with ⟨⟨k, p, hw, hc⟩, hn⟩ | ⟨ha, hn⟩
  · by_cases hstay : (v.drop a).Waits k x p
    · exact .inl (.inl ⟨⟨k, p, hstay, hc⟩, (told_of_past (drop_past v a)).symm ▸ hn⟩)
    · have hca : p.client = a := Classical.byContradiction fun hne => hstay (waits_drop hv hw hne)
      refine .inr ⟨hca.symm.trans hc, fun k' p' hw' => hstay ?_, (told_of_past (drop_past v a)).symm ▸ hn⟩
      obtain ⟨rfl, rfl⟩ := hv.once hw ((drop_sublist v a k').subset hw')
      exact hw'
  · exact .inl (.inr ⟨ha.drop a, (told_of_past (drop_past v a)).symm ▸ hn⟩)

end Ledger

/-! ## A request comes in -/

/-- The uuid of the lock request an operation is. -/
def Op.asks : Op → Option String
  | .request _ r _ => if requestCanGrant r then some r.uuid else none
  | _ => none

theorem Op.asks_request {r : Request} (hr : requestCanGrant r = true) (client : ClientId) (overrides : GrantOverrides) :
    (Op.request client r overrides).asks = some r.uuid := if_pos hr

/-- No request of that uuid waits. -/
def Op.NewUuid (b : Broker) (op : Op) : Prop := ∀ x, op.asks = some x → ∀ k p, ¬b.locks.Waits k x p

/-- The waiters can be looked through. -/
instance (b : Broker) (op : Op) : Decidable (op.NewUuid b) :=
  decidable_of_iff (∀ x ∈ op.asks, ∀ w ∈ b.locks.waiters, w.2.1 ≠ x)
    ⟨fun h x hx _ _ hw => h x hx _ (LockTable.mem_waiters.2 hw) rfl,
      fun h x hx w hw he => h x hx w.1 w.2.2 (LockTable.mem_waiters.1 (he ▸ hw))⟩

namespace Ledger

variable {v v' : Ledger} {env : Env} {x : String} {c : ClientId} {n : Nat} {op : Op}

theorem Filed.award (hv : v.Filed) (lock : KeysOfLock) (u : String) (client : ClientId) (kept : Bool)
    (token : String → Nat) (a : Response) (d : Option (DeadlineKey × DeadlineEntry)) :
    (v.award lock u client kept token a d).Filed := by
  have hgive : (v.give lock.keys lock.rwKind u fun k => ⟨client, kept, token k⟩).Filed := hv.congr rfl rfl
  have hnote := Quiet.note (v.give lock.keys lock.rwKind u fun k => ⟨client, kept, token k⟩) client
    (fun h => { h with heldLockUuids := h.heldLockUuids.insert u lock }) fun _ => rfl
  exact (hnote.filed hgive).congr rfl rfl

theorem told_award {lock : KeysOfLock} {u : String} {client : ClientId} {kept : Bool} {token : String → Nat}
    {a : Response} {d : Option (DeadlineKey × DeadlineEntry)} (h : a.awarded = some x) :
    (v.award lock u client kept token a d).told = x :: v.told := told_tell _ _ h

theorem Enters.filed (h : v.Enters env op v') (hv : v.Filed) (hnew : ∀ y, op.asks = some y → v.Absent y) : v'.Filed := by
  cases h with
  | still _ => exact hv
  | @award lock kept token client r overrides u a d n =>
    exact (hv.award lock u client kept token a d).congr rfl rfl
  | enqueue hj _ _ hx _ _ =>
    have ha := hnew _ (Op.asks_request (Request.canGrant_of_joins hj) _ _)
    rw [← hx] at ha
    exact (hv.enqueue ha).congr rfl rfl

/-- Another request comes in. -/
theorem Enters.leaves (h : v.Enters env op v') (hnew : ∀ y, op.asks = some y → v.Absent y) (hx : op.asks ≠ some x) :
    v.Leaves x v' := by
  cases h with
  | still _ => exact ⟨fun _ _ => .rfl, rfl⟩
  | award lock kept token hr _ _ ha _ =>
    refine ⟨fun _ _ => .rfl, (congrArg (List.count x) (told_award ha.awarded)).trans ?_⟩
    exact List.count_cons_of_ne fun he => hx ((Op.asks_request hr _ _).trans (congrArg some he))
  | enqueue hj _ _ hq _ _ =>
    have hasks := Op.asks_request (Request.canGrant_of_joins hj)
    have ha := hnew _ (hasks _ _)
    rw [← hq] at ha
    refine ⟨fun k q => (ha.waits_push _).trans (or_iff_left fun h => hx ((hasks _ _).trans ?_)), rfl⟩
    rw [h.2.1, hq]

/-- The request itself comes in. -/
theorem Enters.accounts {r : Request} {overrides : GrantOverrides} (h : v.Enters env (.request c r overrides) v')
    (hj : r.joins = true) (hg : v.Gone r.uuid n) : v'.Accounts r.uuid c n := by
  cases h with
  | still hs => cases hs.symm.trans hj
  | award lock kept token _ _ _ ha _ =>
    refine .inr ⟨hg.1, (congrArg (List.count r.uuid) (told_award ha.awarded)).trans ?_⟩
    rw [List.count_cons_self, hg.2]
  | enqueue _ _ hc hq _ _ =>
    have ha := hg.1
    rw [← hq] at ha
    exact .inl ⟨⟨_, _, (ha.waits_push _).2 (.inr ⟨rfl, hq.symm, rfl⟩), hc⟩, hg.2⟩

end Ledger

/-! ## Operations -/

namespace Broker

variable {env : Env} {b b' : Broker} {op : Op} {x : String} {c : ClientId} {n : Nat}

/-- Only a client that goes takes requests out of the queues before others are granted. -/
theorem Opens.quiet {v : Ledger} (h : b.Opens op v) (hop : ∀ a, op ≠ .dropClient a) : b.ledger.Quiet v where
  queue := by
    have hcut : ∀ k x p, (op.cut b).waiter k x p = false := by
      intro k x p
      cases op with
      | request client r _ => exact Ledger.requestCut_waiter _ _ _ _ _ _
      | dropClient client => exact absurd rfl (hop client)
      | _ => rfl
    rcases h.cases with ⟨hq, _⟩ | ⟨_, hd, _⟩ | ⟨_, he, _⟩
    · rw [hq]
      funext k
      simp [Ledger.cut, hcut]
    · exact hd.queue
    · exact (Ledger.rest_of_expires he).1
  told := Ledger.told_of_past h.rest.2
  pending _ _ hc := (h.handle_within hc).imp (fun ⟨_, he, _⟩ => by rw [he]) fun ⟨h₀, hh, hp, _⟩ => ⟨h₀, hh, hp⟩

/-- Before anybody is granted: the files are in order, and of the requests only
those of a client that goes may be missing. -/
theorem Opens.conserves {v : Ledger} (h : b.Opens op v) (hb : b.ledger.Filed) :
    v.Filed ∧ (b.ledger.Absent x → v.Absent x) ∧ (b.ledger.Gone x n → v.Gone x n) ∧
      (b.ledger.Accounts x c n → v.Accounts x c n ∨ op = .dropClient c ∧ v.Gone x n) := by
  by_cases hop : ∃ a, op = .dropClient a
  · obtain ⟨a, rfl⟩ := hop
    obtain rfl : v = b.ledger.drop a := h
    refine ⟨hb.drop a, fun hx => hx.drop a, fun hg => hg.drop a, fun ha => ?_⟩
    exact (ha.drop hb a).imp_right fun ⟨hac, hg⟩ => ⟨hac ▸ rfl, hg⟩
  · have hq := h.quiet (not_exists.1 hop)
    exact ⟨hq.filed hb, (hq.leaves x).absent, (hq.leaves x).gone, fun ha => .inl ((hq.leaves x).accounts ha)⟩

/-- What an operation does to a request that is not its own. -/
theorem apply_conserves (env : Env) (hs : b.Sane) (hb : b.ledger.Filed) (hnew : op.NewUuid b) (hx : op.asks ≠ some x) :
    (b.ledger.Gone x n → (b.apply env op).ledger.Gone x n) ∧
      (b.ledger.Accounts x c n →
        (b.apply env op).ledger.Accounts x c n ∨ op = .dropClient c ∧ (b.apply env op).ledger.Gone x n) := by
  obtain ⟨v₁, v₂, ho, he, hc⟩ := apply_turns env hs op
  have hopen := fun y : String => ho.conserves (x := y) (c := c) (n := n) hb
  have hnew₁ : ∀ y, op.asks = some y → v₁.Absent y :=
    fun y hy => (hopen y).2.1 fun k p hw => hnew y hy k p (ledger_waits.1 hw)
  have hleaves := he.leaves hnew₁ hx
  have hcascade := hc.conserves (x := x) (c := c) (he.filed (hopen x).1 hnew₁)
  refine ⟨fun hg => hcascade.gone n (hleaves.gone ((hopen x).2.2.1 hg)), fun ha => ?_⟩
  rcases (hopen x).2.2.2 ha with ha | ⟨hop, hg⟩
  · exact .inl (hcascade.accounts n (hleaves.accounts ha))
  · exact .inr ⟨hop, hcascade.gone n (hleaves.gone hg)⟩

theorem apply_filed (env : Env) (hs : b.Sane) (hb : b.ledger.Filed) (hnew : op.NewUuid b) :
    (b.apply env op).ledger.Filed := by
  obtain ⟨v₁, v₂, ho, he, hc⟩ := apply_turns env hs op
  have hopen := fun y : String => ho.conserves (x := y) (c := 0) (n := 0) hb
  have hnew₁ : ∀ y, op.asks = some y → v₁.Absent y :=
    fun y hy => (hopen y).2.1 fun k p hw => hnew y hy k p (ledger_waits.1 hw)
  exact (hc.conserves (x := "") (c := 0) (he.filed (hopen "").1 hnew₁)).filed

/-- A request that joins is accounted for when it has come in. -/
theorem apply_accounts (env : Env) (hs : b.Sane) (hb : b.ledger.Filed) {r : Request} {overrides : GrantOverrides}
    (hj : r.joins = true) (hnew : (Op.request c r overrides).NewUuid b) :
    (b.apply env (.request c r overrides)).ledger.Accounts r.uuid c (b.ledger.told.count r.uuid) := by
  obtain ⟨v₁, v₂, ho, he, hc⟩ := apply_turns env hs (.request c r overrides)
  have hopen := fun y : String => ho.conserves (x := y) (c := c) (n := b.ledger.told.count y) hb
  have habsent : ∀ y, (Op.request c r overrides).asks = some y → b.ledger.Absent y :=
    fun y hy k p hw => hnew y hy k p (ledger_waits.1 hw)
  have hgone := (hopen r.uuid).2.2.1 ⟨habsent _ (Op.asks_request (Request.canGrant_of_joins hj) _ _), rfl⟩
  have hfiled := he.filed (hopen r.uuid).1 fun y hy => (hopen y).2.1 (habsent y hy)
  exact (hc.conserves hfiled).accounts _ (he.accounts hj hgone)

/-! ## Runs -/

/-- A restored broker has the queues of the other and no handles. -/
theorem filed_install {other : Broker} {now : Instant} (hs : other.Sane) (ho : other.ledger.Filed)
    (hi : b.installRaftSnapshot env (other.snapshotForRaft now) = .ok b') : b'.ledger.Filed := by
  have hlocks := (installBrokerRaftSnapshot_locks (installRaftSnapshot_ok hi).2).1
  have hback : ∀ {k x p}, b'.ledger.Waits k x p → ∃ p₀, other.ledger.Waits k x p₀ ∧ p = p₀.restored := by
    intro k x p hw
    obtain ⟨p₀, hw₀, hp⟩ := restore_waits hs hlocks (ledger_waits.1 hw)
    exact ⟨p₀, ledger_waits.2 hw₀, hp⟩
  constructor
  · exact b'.ledger_distinct
  · intro k x p hw
    obtain ⟨p₀, hw₀, rfl⟩ := hback hw
    exact (ho.keyed hw₀ : x = p₀.requestUuid)
  · intro k k' x p p' hw hw'
    obtain ⟨p₀, hw₀, rfl⟩ := hback hw
    obtain ⟨p₀', hw₀', rfl⟩ := hback hw'
    obtain ⟨hk, hp⟩ := ho.once hw₀ hw₀'
    exact ⟨hk, congrArg _ hp⟩
  · intro c h k x hc
    change b'.clients[c]? = some h at hc
    rw [install_clients hi] at hc
    simp at hc

theorem ReachableBy.filed {cfg : BrokerConfig} (h : ReachableBy cfg (fun b op => op.NewUuid b) b) : b.ledger.Filed := by
  induction h with
  | new =>
    have hnone : ∀ k x p, ¬(Broker.new cfg).ledger.Waits k x p := by
      intro k x p hw
      obtain ⟨l, hl, _⟩ := ledger_waits.1 hw
      simp [Broker.new, BrokerState.new] at hl
    refine ⟨ledger_distinct _, fun hw => absurd hw (hnone _ _ _), fun hw => absurd hw (hnone _ _ _), fun hc => ?_⟩
    simp at hc
  | apply env op hok h ih => exact apply_filed env (.reachable h.reachable) ih hok
  | install env now _ ho hi _ ih' => exact filed_install (.reachable ho.reachable) ih' hi

/-- A run in which no request has the uuid of one that waits, and none the uuid `x`. -/
theorem RunWhile.conserves {ops : List Op} (h : RunWhile (fun b op => op.NewUuid b) (fun _ => True) b ops b')
    (hs : b.Sane) (hb : b.ledger.Filed) (hx : ∀ op ∈ ops, op.asks ≠ some x) :
    b'.Sane ∧ b'.ledger.Filed ∧ (b.ledger.Gone x n → b'.ledger.Gone x n) ∧
      (b.ledger.Accounts x c n → b'.ledger.Accounts x c n ∨ .dropClient c ∈ ops ∧ b'.ledger.Gone x n) := by
  induction h with
  | nil b => exact ⟨hs, hb, id, .inl⟩
  | cons env op hok _ _ ih =>
    obtain ⟨hs', hb', hgone, haccounts⟩ := ih (hs.does (apply_does op)) (apply_filed env hs hb hok)
      fun op' hmem => hx op' (List.mem_cons_of_mem _ hmem)
    obtain ⟨hgone₁, haccounts₁⟩ := apply_conserves (c := c) (n := n) env hs hb hok (hx op List.mem_cons_self)
    refine ⟨hs', hb', fun hg => hgone (hgone₁ hg), fun ha => ?_⟩
    rcases haccounts₁ ha with ha₁ | ⟨hop, hg⟩
    · exact (haccounts ha₁).imp_right fun h => ⟨List.mem_cons_of_mem _ h.1, h.2⟩
    · exact .inr ⟨hop ▸ List.mem_cons_self, hgone hg⟩

/-- The request waits in one queue, once: for the key, or if it is a composite
for the first of those it still needs. -/
def WaitsOnce (b : Broker) (x : String) (c : ClientId) : Prop :=
  ∃ k p, b.locks.Waits k x p ∧ p.client = c ∧ (∀ a, p.kind = .composite a → a.remainingKeys.head? = some k) ∧
    (∀ k' p', b.locks.Waits k' x p' → k' = k ∧ p' = p) ∧
    ∀ l, b.locks[k]? = some l → (l.queue.entries.map Prod.fst).count x = 1

/-- How often a request of this uuid was told that it has its lock. -/
def told (b : Broker) (x : String) : Nat := (b.sent.filterMap fun s => s.response.awarded).count x

theorem waitsOnce {k : String} {p : PendingRequest} (hs : b.Sane) (hb : b.ledger.Filed) (hw : b.locks.Waits k x p)
    (hc : p.client = c) : b.WaitsOnce x c := by
  refine ⟨k, p, hw, hc, fun a ha => ?_, fun k' p' hw' => ?_, fun l hl => ?_⟩
  · obtain ⟨l, hl, hmem⟩ := hw
    exact (hs.composites k l hl _ hmem a ha).head
  · exact hb.once (ledger_waits.2 hw') (ledger_waits.2 hw)
  · obtain ⟨l', hl', hm⟩ := hw
    obtain rfl := Option.some.inj (hl.symm.trans hl')
    exact List.count_eq_one_of_mem l.queue.nodup (List.mem_map_of_mem hm)

/-- **No waiter is lost or granted twice.** In any run in which no request has the
uuid of one that waits, a request that joins is at every later moment exactly one of:
waiting, in one queue, and not yet granted; granted, once; withdrawn without a grant,
which takes its client going. -/
theorem ReachableBy.waiter_conserved {cfg : BrokerConfig} (h : ReachableBy cfg (fun b op => op.NewUuid b) b) (env : Env)
    {r : Request} {overrides : GrantOverrides} {ops : List Op} (hj : r.joins = true)
    (hnew : (Op.request c r overrides).NewUuid b)
    (hrun : RunWhile (fun b op => op.NewUuid b) (fun _ => True) (b.apply env (.request c r overrides)) ops b')
    (hx : ∀ op ∈ ops, op.asks ≠ some r.uuid) :
    b'.WaitsOnce r.uuid c ∧ b'.told r.uuid = b.told r.uuid ∨
    (∀ k p, ¬b'.locks.Waits k r.uuid p) ∧ b'.told r.uuid = b.told r.uuid + 1 ∨
    (∀ k p, ¬b'.locks.Waits k r.uuid p) ∧ b'.told r.uuid = b.told r.uuid ∧ .dropClient c ∈ ops := by
  have hs : b.Sane := .reachable h.reachable
  have hfiled := apply_filed env hs h.filed hnew
  obtain ⟨hs', hb', _, hrest⟩ := hrun.conserves (c := c) (n := b.ledger.told.count r.uuid) (hs.does (apply_does _)) hfiled hx
  have habsent : b'.ledger.Absent r.uuid → ∀ k p, ¬b'.locks.Waits k r.uuid p :=
    fun ha k p hw => ha k p (ledger_waits.2 hw)
  simp only [told, ← ledger_told]
  rcases hrest (apply_accounts env hs h.filed hj hnew) with (⟨⟨k, p, hw, hc⟩, hn⟩ | ⟨ha, hn⟩) | ⟨hop, ha, hn⟩
  · exact .inl ⟨waitsOnce hs' hb' (ledger_waits.1 hw) hc, hn⟩
  · exact .inr (.inl ⟨habsent ha, hn⟩)
  · exact .inr (.inr ⟨habsent ha, hn, hop⟩)

/-- One client holds the key, a second waits for it, and gets it when the first unlocks. -/
theorem ReachableBy.waiter_conserved_granted :
    (Sample.after [Sample.ask 1 (Sample.lock "r" "k"), Sample.ask 2 (Sample.lock "s" "k"),
      Sample.ask 1 (Sample.unlock "t" "k" "uu")]).told "s" = 1 := by
  have hreach : ReachableBy Sample.config (fun b op => op.NewUuid b) (Sample.after [Sample.ask 1 (Sample.lock "r" "k")]) :=
    .apply Sample.env (Sample.ask 1 (Sample.lock "r" "k"))
      (show Op.NewUuid (Broker.new Sample.config) _ by decide +kernel) .new
  have hrun : RunWhile (fun b op => op.NewUuid b) (fun _ => True)
      ((Sample.after [Sample.ask 1 (Sample.lock "r" "k")]).apply Sample.env (Sample.ask 2 (Sample.lock "s" "k")))
      [Sample.ask 1 (Sample.unlock "t" "k" "uu")]
      (Sample.after [Sample.ask 1 (Sample.lock "r" "k"), Sample.ask 2 (Sample.lock "s" "k"),
        Sample.ask 1 (Sample.unlock "t" "k" "uu")]) :=
    .cons Sample.env _ (by decide +kernel) trivial (.nil _)
  have hnone : (Sample.after [Sample.ask 1 (Sample.lock "r" "k"), Sample.ask 2 (Sample.lock "s" "k"),
      Sample.ask 1 (Sample.unlock "t" "k" "uu")]).locks.waiters = [] := by decide +kernel
  rcases hreach.waiter_conserved Sample.env rfl (by decide +kernel) hrun (by decide) with h | h | h
  · obtain ⟨k, p, hw, _⟩ := h.1
    rw [← LockTable.mem_waiters, hnone] at hw
    cases hw
  · exact h.2.trans (by decide +kernel)
  · exact absurd h.2.2 (by decide)

end Broker

end LiveMutex
