/-
`validate_broker_raft_snapshot` accepts the snapshot of a broker whose table is
in order (`Sane`, `Named`) and whose deadlines are whole: a deadline of which one
key is still held has all its keys held.
-/
import LiveMutex.Named

namespace LiveMutex

/-! ## The loops of the validator -/

@[simp] theorem refuseIf_false (err : String) : refuseIf false err = .ok () := rfl

theorem ok_bind {ε α β : Type} (a : α) (f : α → Except ε β) : (Except.ok a >>= f) = f a := rfl

/-- A loop that inserts one string a round goes through, when every round does
on what was not inserted before. -/
theorem foldlM_snoc {ε : Type} (key : ε → String) {f : List String → ε → Except String (List String)}
    (P : ε → Prop) (hf : ∀ seen e, P e → key e ∉ seen → f seen e = .ok (seen ++ [key e])) :
    ∀ (es : List ε) (seen : List String), (es.map key).Nodup → (∀ e ∈ es, P e ∧ key e ∉ seen) →
      es.foldlM f seen = .ok (seen ++ es.map key)
  | [], seen, _, _ => by simp; rfl
  | e :: es, seen, hnd, hes => by
    rw [List.map_cons, List.nodup_cons] at hnd
    obtain ⟨hP, hseen⟩ := hes e List.mem_cons_self
    rw [List.foldlM_cons, hf seen e hP hseen]
    refine (foldlM_snoc key P hf es (seen ++ [key e]) hnd.2 fun v hv => ?_).trans (by simp)
    obtain ⟨hPv, hvseen⟩ := hes v (List.mem_cons_of_mem _ hv)
    refine ⟨hPv, fun hm => ?_⟩
    rcases List.mem_append.1 hm with hm | hm
    · exact hvseen hm
    · exact hnd.1 (List.mem_map.2 ⟨v, hv, List.mem_singleton.1 hm⟩)

theorem insertUuid_ok {emptyErr u : String} {repeatErr : String → String} {seen : List String} (hu : u ≠ "")
    (hseen : u ∉ seen) : insertUuid emptyErr repeatErr seen u = .ok (seen ++ [u]) := by
  have hempty : u.isEmpty = false := by simpa [String.isEmpty_iff] using hu
  have hc : seen.contains u = false := by simpa using hseen
  simp only [insertUuid, hempty, hc]
  rfl

theorem insertMember_ok {all seen : List String} {outsideErr repeatErr : String → String} {k : String}
    (hall : k ∈ all) (hseen : k ∉ seen) : insertMember all outsideErr repeatErr seen k = .ok (seen ++ [k]) := by
  have ha : all.contains k = true := by simpa using hall
  have hc : seen.contains k = false := by simpa using hseen
  simp only [insertMember, ha, hc]
  rfl

theorem foldlM_insertUuid {emptyErr : String} {repeatErr : String → String} {us seen : List String}
    (hnd : us.Nodup) (hus : ∀ u ∈ us, u ≠ "" ∧ u ∉ seen) :
    us.foldlM (insertUuid emptyErr repeatErr) seen = .ok (seen ++ us) := by
  have h : us.foldlM (insertUuid emptyErr repeatErr) seen = .ok (seen ++ us.map id) :=
    foldlM_snoc id (· ≠ "") (fun seen u => insertUuid_ok) us seen (by simpa using hnd) hus
  simpa using h

/-- A loop of checks that all pass. -/
theorem forM_ok {ε : Type} {f : ε → Except String Unit} :
    ∀ (es : List ε), (∀ e ∈ es, f e = .ok ()) → es.forM f = .ok ()
  | [], _ => rfl
  | e :: es, h => by
    show (f e >>= fun _ => es.forM f) = .ok ()
    rw [h e List.mem_cons_self]
    exact forM_ok es fun e he => h e (List.mem_cons_of_mem _ he)

/-! ## Waiters -/

/-- The keys of a composite waiter: sorted, so all different, and none among
both the granted and the remaining ones. -/
theorem Composite.Wf.nodup {c : Composite} {key : String} (h : c.Wf key) :
    c.allKeys.Nodup ∧ c.remainingKeys.Nodup ∧ c.grantedKeys.Nodup ∧ ∀ k ∈ c.grantedKeys, k ∉ c.remainingKeys := by
  have hall : c.allKeys.Nodup := h.sorted.imp ne_of_lt
  have hsplit := hall
  rw [h.split, List.nodup_append] at hsplit
  exact ⟨hall, hsplit.2.1, hsplit.1, fun k hg hr => hsplit.2.2 k hg k hr rfl⟩

theorem validateCompositeWaiter_ok {c : Composite} {key : String} (h : c.Wf key) (hu : c.compositeLockUuid ≠ "")
    (hk : ∀ k ∈ c.allKeys, k ≠ "") : validateCompositeWaiter key c = .ok () := by
  obtain ⟨hnd, hrem, hgr, hdisj⟩ := h.nodup
  have hmem : ∀ k, k ∈ c.allKeys ↔ k ∈ c.grantedKeys ∨ k ∈ c.remainingKeys := by
    intro k
    rw [h.split, List.mem_append]
  have hempty : c.compositeLockUuid.isEmpty = false := by simpa [String.isEmpty_iff] using hu
  have hremaining : c.remainingKeys = key :: c.remainingKeys.tail := h.remaining_eq
  have hcount : (c.allKeys.isEmpty || decide (c.allKeys.length > maxCompositeKeys)) = false := by
    have hne : c.allKeys ≠ [] := by
      intro he
      have := (hmem key).2 (.inr (by rw [hremaining]; simp))
      rw [he] at this
      cases this
    simp [hne, h.length_le]
  have hhead : (c.remainingKeys.head?.any fun x => decide (x ≠ key)) = false := by simp [h.head]
  have hall : ∀ {e : String} {r : String → String}, c.allKeys.foldlM (insertUuid e r) [] = .ok c.allKeys :=
    foldlM_insertUuid hnd fun k hm => ⟨hk k hm, by simp⟩
  have hrest : ∀ {o r : String → String},
      c.remainingKeys.foldlM (insertMember c.allKeys o r) [] = .ok c.remainingKeys := by
    intro o r
    have hloop : c.remainingKeys.foldlM (insertMember c.allKeys o r) [] = .ok ([] ++ c.remainingKeys.map id) :=
      foldlM_snoc id (· ∈ c.allKeys) (fun _ _ => insertMember_ok) c.remainingKeys [] (by simpa using hrem)
        fun k hm => ⟨(hmem k).2 (.inr hm), by simp⟩
    simpa using hloop
  have hgranted : ∀ {o r : String → String} {e : String → String},
      c.grantedKeys.foldlM (fun seen k => do
        let seen ← insertMember c.allKeys o r seen k
        refuseIf (c.remainingKeys.contains k) (e k)
        return seen) [] = .ok c.grantedKeys := by
    intro o r e
    have hloop := foldlM_snoc id (fun k => k ∈ c.allKeys ∧ k ∉ c.remainingKeys)
      (f := fun seen k => do
        let seen ← insertMember c.allKeys o r seen k
        refuseIf (c.remainingKeys.contains k) (e k)
        return seen)
      (fun seen k hk hs => by
        have hc : c.remainingKeys.contains k = false := by simpa using hk.2
        rw [insertMember_ok hk.1 hs, hc]
        rfl)
      c.grantedKeys [] (by simpa using hgr) fun k hm => ⟨⟨(hmem k).2 (.inl hm), hdisj k hm⟩, by simp⟩
    simpa using hloop
  have htokens : ∀ {e : String → String},
      c.grantedTokens.keys.forM (fun k => refuseIf (!c.allKeys.contains k) (e k)) = .ok () := by
    intro e
    refine forM_ok _ fun k hk => ?_
    rw [Std.ExtTreeMap.mem_keys] at hk
    have : c.allKeys.contains k = true := by simpa using (hmem k).2 (.inl ((h.tokens k).1 hk))
    rw [this]
    rfl
  have hpartition : (c.allKeys.all fun k => c.remainingKeys.contains k || c.grantedKeys.contains k) = true := by
    simp only [List.all_eq_true, Bool.or_eq_true, List.contains_iff_mem]
    exact fun k hk => ((hmem k).1 hk).symm
  have hmatch : (c.grantedTokens.keys.all c.grantedKeys.contains &&
      c.grantedKeys.all fun k => c.grantedTokens.contains k) = true := by
    simp only [Bool.and_eq_true, List.all_eq_true, List.contains_iff_mem, Std.ExtTreeMap.mem_keys,
      Std.ExtTreeMap.contains_iff_mem]
    exact ⟨fun k hk => (h.tokens k).1 hk, fun k hk => (h.tokens k).2 hk⟩
  have hne : c.remainingKeys.isEmpty = false := by rw [hremaining]; rfl
  unfold validateCompositeWaiter
  simp only [hempty, hcount, hne, hhead, hall, hrest, hgranted, htokens, hpartition, hmatch, refuseIf_false,
    Bool.not_true, ok_bind]

theorem validateBrokerRaftWaiterSnapshot_ok {p : PendingRequest} {key : String} (hp : p.Named)
    (hc : ∀ c, p.kind = .composite c → c.Wf key) : validateBrokerRaftWaiterSnapshot key p.snapshot = .ok () := by
  have hrequest : p.snapshot.requestUuid.isEmpty = false := by
    simpa [PendingRequest.snapshot, String.isEmpty_iff] using hp.requestUuid
  have hgrant : p.snapshot.grantLockUuid.any String.isEmpty = false := by
    have hne := hp.grantLockUuid
    rw [Bool.eq_false_iff]
    intro h
    rw [Option.any_eq_true] at h
    obtain ⟨u, hu, he⟩ := h
    exact hne (by rw [← String.isEmpty_iff.1 he]; exact hu)
  unfold validateBrokerRaftWaiterSnapshot
  simp only [hrequest, hgrant, refuseIf_false, ok_bind]
  split
  · rfl
  · rfl
  · rfl
  · rename_i c hk
    obtain ⟨hu, hall, _⟩ := hp.composite c hk
    exact validateCompositeWaiter_ok (hc c hk) hu hall

/-! ## Keys -/

section

variable {cfg : BrokerConfig} {key : String} {l : LockState}

theorem validate_exclusiveHolders (hn : l.Named) {e : String} {r : String → String} :
    ((l.snapshot key).exclusiveHolders.map (·.lockUuid)).foldlM (insertUuid e r) [] =
      .ok l.exclusiveHolders.keys := by
  have hkeys : (l.snapshot key).exclusiveHolders.map (·.lockUuid) = l.exclusiveHolders.keys := by
    rw [← Std.ExtTreeMap.map_fst_toList_eq_keys]
    simp only [LockState.snapshot, List.map_map]
    rfl
  rw [hkeys]
  exact foldlM_insertUuid l.exclusiveHolders.nodup_keys fun u hu =>
    ⟨hn.exclusive u (Std.ExtTreeMap.mem_keys.1 hu), by simp⟩

-- the key is held in one way at most, so no uuid is listed twice
theorem validate_readers (hn : l.Named) (hs : l.Sound cfg) {e : String} {r : String → String} :
    ((l.snapshot key).readers.map (·.lockUuid)).foldlM (insertUuid e r) l.exclusiveHolders.keys =
      .ok (l.exclusiveHolders.keys ++ l.readers.keys) := by
  have hkeys : (l.snapshot key).readers.map (·.lockUuid) = l.readers.keys := by
    rw [← Std.ExtTreeMap.map_fst_toList_eq_keys]
    simp only [LockState.snapshot, List.map_map]
    rfl
  rw [hkeys]
  refine foldlM_insertUuid l.readers.nodup_keys fun u hu =>
    ⟨hn.readers u (Std.ExtTreeMap.mem_keys.1 hu), fun he => ?_⟩
  rw [Std.ExtTreeMap.mem_keys] at hu he
  rcases hs.readers_alone with h | h
  · rw [Std.ExtTreeMap.isEmpty_iff.1 h] at hu; simp at hu
  · rw [Std.ExtTreeMap.isEmpty_iff.1 h] at he; simp at he

theorem validate_writer (hn : l.Named) (hs : l.Sound cfg) {e : String} {r : String → String} :
    ((l.snapshot key).writer.toList.map (·.lockUuid)).foldlM (insertUuid e r)
      (l.exclusiveHolders.keys ++ l.readers.keys) =
      .ok (l.exclusiveHolders.keys ++ l.readers.keys ++ (l.snapshot key).writer.toList.map (·.lockUuid)) := by
  refine foldlM_insertUuid ?_ ?_
  · cases hw : l.writer <;> simp [LockState.snapshot, hw]
  · cases hw : l.writer with
    | none => simp [LockState.snapshot, hw]
    | some w =>
      obtain ⟨hr, he⟩ := hs.writer_alone (by rw [hw]; rfl)
      rw [Std.ExtTreeMap.isEmpty_iff] at hr he
      simpa [LockState.snapshot, hw, hr, he] using hn.writer w hw

/-- The waiters pass: they are queued under their own uuids, no uuid twice. -/
theorem validate_queue (hn : l.Named) (hc : l.CompositesWf key) (hk : l.Keyed)
    {f : BrokerRaftPendingRequestSnapshot → String} :
    (l.snapshot key).queue.foldlM (fun seen waiter => do
      validateBrokerRaftWaiterSnapshot key waiter
      refuseIf (seen.contains waiter.requestUuid) (f waiter)
      return seen ++ [waiter.requestUuid]) ([] : List String) =
    .ok ([] ++ (l.snapshot key).queue.map (·.requestUuid)) := by
  refine foldlM_snoc BrokerRaftPendingRequestSnapshot.requestUuid
    (fun w => validateBrokerRaftWaiterSnapshot key w = .ok ()) (fun seen w hw hs => ?_) _ _ ?_ fun w hw => ?_
  · have hseen : seen.contains w.requestUuid = false := by simpa using hs
    rw [hw, hseen]
    rfl
  · have hmap : (l.snapshot key).queue.map (·.requestUuid) = l.queue.entries.map Prod.fst := by
      simp only [LockState.snapshot, List.map_map]
      exact List.map_congr_left fun e he => (hk e he).symm
    rw [hmap]
    exact l.queue.nodup
  · obtain ⟨e, he, rfl⟩ := List.mem_map.1 hw
    exact ⟨validateBrokerRaftWaiterSnapshot_ok (hn.waiters e he) fun c hp => hc e he c hp, by simp⟩

theorem snapshot_idle :
    ((l.snapshot key).idle && (!(l.snapshot key).exclusiveHolders.isEmpty ||
      !(l.snapshot key).readers.isEmpty || (l.snapshot key).writer.isSome ||
      !(l.snapshot key).queue.isEmpty)) = false := by
  rw [Bool.eq_false_iff]
  intro h
  simp only [LockState.snapshot, LockState.isIdle, LinkedQueue.isEmpty, Bool.and_eq_true,
    Std.ExtTreeMap.isEmpty_iff, Option.isNone_iff_eq_none, List.isEmpty_iff] at h
  simp [h.1] at h

/-- One key of the table passes. -/
theorem validateLockSnapshot_ok {seen : List String} (hkey : key ≠ "") (hseen : key ∉ seen) (hn : l.Named)
    (hs : l.Sound cfg) (hc : l.CompositesWf key) (hk : l.Keyed) :
    validateLockSnapshot seen (l.snapshot key) = .ok (seen ++ [key]) := by
  have hname : (l.snapshot key).key = key := rfl
  have hempty : key.isEmpty = false := by simpa [String.isEmpty_iff] using hkey
  have hcontains : seen.contains key = false := by simpa using hseen
  have hmax : ¬(l.snapshot key).max = 0 := Nat.ne_of_gt hs.max_pos
  unfold validateLockSnapshot
  simp only [hname, hempty, hcontains, hmax, decide_false, validate_exclusiveHolders hn,
    validate_readers hn hs, validate_writer hn hs, snapshot_idle, validate_queue hn hc hk, refuseIf_false, ok_bind]
  rfl

end

/-! ## Deadlines -/

/-- A deadline is for exclusive holds, and when one of its keys is held under
its uuid, all of them are. -/
def Broker.DeadlinesWhole (b : Broker) : Prop :=
  ∀ (dk : DeadlineKey) e, b.deadlines[dk]? = some e → e.kind = .exclusive ∧
    ∀ k ∈ e.keys, ∀ l, b.locks[k]? = some l → e.lockUuid ∈ l.exclusiveHolders →
      ∀ k' ∈ e.keys, ∃ l', b.locks[k']? = some l' ∧ e.lockUuid ∈ l'.exclusiveHolders

namespace Broker

variable {b : Broker} {now : Instant}

/-- The entry of a key in the snapshot. -/
theorem find_snapshot {key : String} {l : LockState} (h : b.locks[key]? = some l) :
    ((b.snapshotForRaft now).locks.find? fun s => s.key = key) = some (l.snapshot key) := by
  have hfind : (b.locks.toList.find? fun kl => decide (kl.1 = key)) = some (key, l) := by
    have hpred : (fun kl : String × LockState => decide (kl.1 = key)) = fun kl => compare kl.1 key == .eq := by
      funext kl
      rw [Bool.eq_iff_iff]
      simp
    rw [hpred]
    exact Std.ExtTreeMap.find?_toList_eq_some_iff_getKey?_eq_some_and_getElem?_eq_some.2
      ⟨Std.ExtTreeMap.getKey?_eq_some (OrdMap.mem_iff_get.2 ⟨l, h⟩), h⟩
  show ((b.locks.toList.map fun kl => kl.2.snapshot kl.1).find? fun s => s.key = key) = some (l.snapshot key)
  rw [List.find?_map]
  have hcomp : ((fun s : BrokerRaftLockSnapshot => decide (s.key = key)) ∘
      fun kl : String × LockState => kl.2.snapshot kl.1) = fun kl => decide (kl.1 = key) := rfl
  rw [hcomp, hfind]
  rfl

theorem snapshot_holds {key u : String} {l : LockState} (h : u ∈ l.exclusiveHolders) :
    (l.snapshot key).holds u .exclusive = true := by
  obtain ⟨holder, hh⟩ := OrdMap.mem_iff_get.1 h
  simp only [BrokerRaftLockSnapshot.holds, LockState.snapshot, List.any_map, List.any_eq_true]
  exact ⟨(u, holder), OrdMap.mem_toList.2 hh, by simp⟩

/-- The keys of a deadline that is exported are held, all of them. -/
theorem DeadlinesWhole.exported (h : b.DeadlinesWhole) {d : BrokerRaftDeadlineSnapshot}
    (hd : d ∈ (b.snapshotForRaft now).deadlines) :
    d.kind = .exclusive ∧ d.keys ≠ [] ∧
      ∀ k ∈ d.keys, ∃ l, b.locks[k]? = some l ∧ d.lockUuid ∈ l.exclusiveHolders := by
  have hmem : d ∈ b.deadlineSnapshots now := (List.mem_insertionSort _).1 hd
  obtain ⟨⟨dk, e⟩, he, rfl⟩ := List.mem_map.1 hmem
  obtain ⟨he, hheld⟩ := List.mem_filter.1 he
  obtain ⟨hkind, hall⟩ := h dk e (OrdMap.mem_toList.1 he)
  simp only [deadlineEntryIsStillHeld, List.any_eq_true, Option.any_eq_true, hkind, LockState.containsUuidForKind,
    Std.ExtTreeMap.contains_iff_mem] at hheld
  obtain ⟨k, hk, l, hl, hu⟩ := hheld
  exact ⟨hkind, List.ne_nil_of_mem hk, hall k hk l hl hu⟩

theorem validateDeadlineSnapshot_ok (h : b.DeadlinesWhole) (hn : b.locks.Named) {d : BrokerRaftDeadlineSnapshot}
    (hd : d ∈ (b.snapshotForRaft now).deadlines) :
    validateDeadlineSnapshot (b.snapshotForRaft now).locks d = .ok () := by
  obtain ⟨hkind, hne, hall⟩ := h.exported hd
  obtain ⟨k₀, hk₀⟩ := List.exists_mem_of_ne_nil _ hne
  obtain ⟨l₀, hl₀, hu₀⟩ := hall k₀ hk₀
  have huuid : d.lockUuid.isEmpty = false := by
    simpa [String.isEmpty_iff] using (hn k₀ l₀ hl₀).2.exclusive _ hu₀
  have hkeys : d.keys.isEmpty = false := by simpa using hne
  have hnamed : d.keys.any String.isEmpty = false := by
    rw [Bool.eq_false_iff]
    intro hany
    obtain ⟨k, hk, hempty⟩ := List.any_eq_true.1 hany
    obtain ⟨l, hl, _⟩ := hall k hk
    exact (hn k l hl).1 (String.isEmpty_iff.1 hempty)
  have hmatch : snapshotDeadlineMatchesLocks (b.snapshotForRaft now).locks d = true := by
    unfold snapshotDeadlineMatchesLocks
    refine List.all_eq_true.2 fun k hk => ?_
    obtain ⟨l, hl, hu⟩ := hall k hk
    rw [find_snapshot hl, hkind]
    exact snapshot_holds hu
  unfold validateDeadlineSnapshot
  simp only [huuid, hkeys, hnamed, hmatch, refuseIf_false, ok_bind, Bool.not_true]

/-- **The snapshot of a broker in order is accepted.** -/
theorem validateBrokerRaftSnapshot_ok (hs : b.Sane) (hn : b.locks.Named) (hd : b.DeadlinesWhole) (now : Instant) :
    validateBrokerRaftSnapshot (b.snapshotForRaft now) = .ok () := by
  have hlocks : (b.snapshotForRaft now).locks.foldlM validateLockSnapshot [] =
      .ok ([] ++ (b.snapshotForRaft now).locks.map (·.key)) := by
    refine foldlM_snoc BrokerRaftLockSnapshot.key
      (fun s => ∃ (key : String) (l : LockState), b.locks[key]? = some l ∧ s = l.snapshot key) ?_ _ _ ?_ fun s hm => ?_
    · rintro seen _ ⟨key, l, hl, rfl⟩ hseen
      exact validateLockSnapshot_ok (hn key l hl).1 hseen (hn key l hl).2 (hs.sound key l hl) (hs.composites key l hl)
        (hs.keyed key l hl)
    · simp only [snapshotForRaft, List.map_map]
      exact OrdMap.nodup_map_fst_toList b.locks
    · obtain ⟨⟨key, l⟩, he, rfl⟩ := List.mem_map.1 hm
      exact ⟨⟨key, l, OrdMap.mem_toList.1 he, rfl⟩, by simp⟩
  have hwaiters : (b.snapshotForRaft now).metrics.waiters =
      ((b.snapshotForRaft now).locks.map (·.queue.length)).sum := by
    simp only [snapshotForRaft, metrics, OrdMap.sumBy, List.map_map]
    congr 2
    funext kl
    simp [LockState.snapshot, LinkedQueue.len]
  have hdeadlines := forM_ok (b.snapshotForRaft now).deadlines fun d hm => validateDeadlineSnapshot_ok hd hn hm
  unfold validateBrokerRaftSnapshot
  simp only [hlocks, hwaiters, ok_bind, ne_eq, not_true, decide_false, refuseIf_false]
  exact hdeadlines

end Broker

end LiveMutex
