/-
What a broker has after a snapshot was installed: the waiters and stakes of the
broker it was taken from, its deadlines that were still held, and no client.
-/
import LiveMutex.LedgerFacts

namespace LiveMutex

/-- The entry a deadline comes back as. -/
def BrokerRaftDeadlineSnapshot.entry (d : BrokerRaftDeadlineSnapshot) : DeadlineEntry :=
  ⟨d.lockUuid, d.keys, d.kind, snapshotDetachedClient⟩

namespace Broker

variable {env : Env} {b other b' : Broker} {now : Instant}

/-! ## Deadlines -/

theorem installDeadline_get {next next' : Broker} {d : BrokerRaftDeadlineSnapshot}
    (h : installDeadline env now next d = .ok next') : ∃ at_, next'.deadlines = next.deadlines.insert at_ d.entry := by
  unfold installDeadline at h
  split at h
  · cases h
  · cases h
    exact ⟨_, rfl⟩

/-- The new entry, or one that was there. -/
theorem installDeadline_from {next next' : Broker} {d : BrokerRaftDeadlineSnapshot}
    (h : installDeadline env now next d = .ok next') {dk : DeadlineKey} {e : DeadlineEntry}
    (he : next'.deadlines[dk]? = some e) : next.deadlines[dk]? = some e ∨ e = d.entry := by
  obtain ⟨at_, hd⟩ := installDeadline_get h
  rw [hd, OrdMap.get_insert] at he
  split at he
  · exact .inr (Option.some.inj he).symm
  · exact .inl he

theorem installDeadlines_from : ∀ {ds : List BrokerRaftDeadlineSnapshot} {next next' : Broker},
    ds.foldlM (installDeadline env now) next = .ok next' → ∀ (dk : DeadlineKey) e, next'.deadlines[dk]? = some e →
      next.deadlines[dk]? = some e ∨ ∃ d ∈ ds, e = d.entry
  | [], next, next', h, dk, e, he => by
    cases h
    exact .inl he
  | d :: ds, next, next', h, dk, e, he => by
    rw [List.foldlM_cons] at h
    cases hd : installDeadline env now next d with
    | error e => rw [hd] at h; cases h
    | ok mid =>
      rw [hd] at h
      rcases installDeadlines_from h dk e he with he | ⟨d', hd', rfl⟩
      · exact (installDeadline_from hd he).imp_right fun he => ⟨d, List.mem_cons_self, he⟩
      · exact .inr ⟨d', List.mem_cons_of_mem _ hd', rfl⟩

/-- No two deadlines are for the same uuid. -/
def OneDeadline (b : Broker) : Prop := ∀ (dk dk' : DeadlineKey) e e', b.deadlines[dk]? = some e →
  b.deadlines[dk']? = some e' → e.lockUuid = e'.lockUuid → dk = dk'

theorem OneDeadline.installs : ∀ {ds : List BrokerRaftDeadlineSnapshot} {next next' : Broker}, next.OneDeadline →
    ds.foldlM (installDeadline env now) next = .ok next' → (ds.map (·.lockUuid)).Nodup →
    (∀ d ∈ ds, ∀ (dk : DeadlineKey) e, next.deadlines[dk]? = some e → e.lockUuid ≠ d.lockUuid) → next'.OneDeadline
  | [], next, next', hone, h, _, _ => by
    cases h
    exact hone
  | d :: ds, next, next', hone, h, hnd, hnew => by
    rw [List.map_cons, List.nodup_cons] at hnd
    rw [List.foldlM_cons] at h
    cases hd : installDeadline env now next d with
    | error e => rw [hd] at h; cases h
    | ok mid =>
      rw [hd] at h
      obtain ⟨at_, hmid⟩ := installDeadline_get hd
      have hget : ∀ (dk : DeadlineKey) e, mid.deadlines[dk]? = some e →
          at_ = dk ∧ e = d.entry ∨ next.deadlines[dk]? = some e := by
        intro dk e he
        rw [hmid, OrdMap.get_insert] at he
        split at he
        · exact .inl ⟨‹_›, (Option.some.inj he).symm⟩
        · exact .inr he
      have hnew' : ∀ d' ∈ ds, ∀ (dk : DeadlineKey) e, mid.deadlines[dk]? = some e → e.lockUuid ≠ d'.lockUuid := by
        intro d' hd' dk e he
        rcases installDeadline_from hd he with he | rfl
        · exact hnew d' (List.mem_cons_of_mem _ hd') dk e he
        · exact fun hu => hnd.1 (List.mem_map.2 ⟨d', hd', hu.symm⟩)
      have hone' : mid.OneDeadline := by
        intro dk dk' e e' he he' hu
        rcases hget dk e he with ⟨rfl, rfl⟩ | he <;> rcases hget dk' e' he' with ⟨rfl, rfl⟩ | he'
        · rfl
        · exact absurd hu.symm (hnew d List.mem_cons_self dk' e' he')
        · exact absurd hu (hnew d List.mem_cons_self dk e he)
        · exact hone dk dk' e e' he he' hu
      exact hone'.installs h hnd.2 hnew'

theorem mem_deadlineSnapshots {d : BrokerRaftDeadlineSnapshot} (h : d ∈ (other.snapshotForRaft now).deadlines) :
    ∃ (dk : DeadlineKey) (e : DeadlineEntry), other.deadlines[dk]? = some e ∧ d.lockUuid = e.lockUuid ∧
      d.keys = e.keys ∧ d.kind = e.kind := by
  have hmem : d ∈ other.deadlineSnapshots now := (List.mem_insertionSort _).1 h
  obtain ⟨⟨dk, e⟩, he, rfl⟩ := List.mem_map.1 hmem
  exact ⟨dk, e, OrdMap.mem_toList.1 (List.mem_filter.1 he).1, rfl, rfl, rfl⟩

theorem OneDeadline.nodup (h : other.OneDeadline) : ((other.snapshotForRaft now).deadlines.map (·.lockUuid)).Nodup := by
  have hperm : ((other.snapshotForRaft now).deadlines.map (·.lockUuid)).Perm
      ((other.deadlineSnapshots now).map (·.lockUuid)) := (List.perm_insertionSort _ _).map _
  rw [hperm.nodup_iff]
  unfold deadlineSnapshots
  rw [List.map_map]
  refine List.Nodup.map_on ?_ ((OrdMap.nodup_toList other.deadlines).filter _)
  rintro ⟨dk, e⟩ he ⟨dk', e'⟩ he' hu
  have he := OrdMap.mem_toList.1 (List.mem_filter.1 he).1
  have he' := OrdMap.mem_toList.1 (List.mem_filter.1 he').1
  obtain rfl := h dk dk' e e' he he' hu
  exact Prod.ext rfl (Option.some.inj (he.symm.trans he'))

/-! ## The table -/

/-- A stake comes back as it was, but for its client. -/
theorem restore_stake {cap : Nat} {now' : Instant} {k u : String} {kind : RwHoldKind}
    (ht : b'.locks = other.locks.map fun key l => (l.snapshot key).restore cap now') : b'.ledger.stake k kind u =
      (other.ledger.stake k kind u).map fun s => { s with client := snapshotDetachedClient } := by
  show b'.locks.stakeAt k kind u = (other.locks.stakeAt k kind u).map _
  unfold LockTable.stakeAt
  rw [ht, Std.ExtTreeMap.getElem?_map]
  cases other.locks[k]? with
  | none => rfl
  | some l =>
    simp only [Option.map_some, Option.bind_some]
    cases kind with
    | exclusive =>
      simp only [LockState.stake, LockState.restore_exclusiveHolders, Std.ExtTreeMap.getElem?_map]
      cases l.exclusiveHolders[u]? <;> simp [ExclusiveHolder.kept]
    | read =>
      simp only [LockState.stake, LockState.restore_readers, Std.ExtTreeMap.getElem?_map]
      cases l.readers[u]? <;> simp
    | write =>
      simp only [LockState.stake, LockState.restore_writer]
      cases l.writer with
      | none => rfl
      | some w => by_cases hu : w.lockUuid = u <;> simp [Option.filter, hu]

theorem restore_waits {q x : String} {p : PendingRequest} {cap : Nat} {now' : Instant} (hs : other.Sane)
    (ht : b'.locks = other.locks.map fun key l => (l.snapshot key).restore cap now')
    (h : b'.locks.Waits q x p) : ∃ p₀, other.locks.Waits q x p₀ ∧ p = p₀.restored := by
  obtain ⟨l, hl, hm⟩ := h
  rw [ht, Std.ExtTreeMap.getElem?_map] at hl
  obtain ⟨l₀, hl₀, rfl⟩ := Option.map_eq_some_iff.1 hl
  obtain ⟨⟨y, p₀⟩, he, heq⟩ := LockState.mem_restore_queue hm
  obtain ⟨rfl, rfl⟩ := Prod.mk.inj heq
  have hkeyed : y = p₀.requestUuid := hs.keyed q l₀ hl₀ _ he
  exact ⟨p₀, ⟨l₀, hl₀, hkeyed ▸ he⟩, rfl⟩

/-- What the loop over the locks leaves as it was. -/
theorem installLocks_rest (now' : Instant) (ss : List BrokerRaftLockSnapshot) (next : Broker) :
    (ss.foldl (installLock now') next).clients = next.clients ∧
    (ss.foldl (installLock now') next).deadlines = next.deadlines ∧
    (ss.foldl (installLock now') next).reads = next.reads ∧
    (ss.foldl (installLock now') next).past = next.past := by
  induction ss generalizing next with
  | nil => exact ⟨rfl, rfl, rfl, rfl⟩
  | cons s ss ih => exact ih (installLock now' next s)

/-- A restored broker knows no client. -/
theorem install_clients (hi : b.installRaftSnapshot env (other.snapshotForRaft now) = .ok b') : b'.clients = ∅ := by
  have hinstall := (installRaftSnapshot_ok hi).2
  rw [installBrokerRaftSnapshot_eq] at hinstall
  rw [installDeadlines_eq hinstall]
  exact (installLocks_rest (env.now b.reads) (other.snapshotForRaft now).locks _).1.trans rfl

/-- What a restored broker has beside its table. -/
theorem install_rest (hi : b.installRaftSnapshot env (other.snapshotForRaft now) = .ok b') :
    (∀ (dk : DeadlineKey) e, b'.deadlines[dk]? = some e → ∃ d ∈ (other.snapshotForRaft now).deadlines, e = d.entry) ∧
      (other.OneDeadline → b'.OneDeadline) ∧ b.reads ≤ b'.reads ∧ b'.past = b.past := by
  have hinstall := (installRaftSnapshot_ok hi).2
  rw [installBrokerRaftSnapshot_eq] at hinstall
  obtain ⟨_, hdeadlines, hreads, hpast⟩ := installLocks_rest (env.now b.reads)
    (other.snapshotForRaft now).locks (b.installBase (other.snapshotForRaft now))
  have hempty : ∀ dk : DeadlineKey, ((other.snapshotForRaft now).locks.foldl (installLock (env.now b.reads))
      (b.installBase (other.snapshotForRaft now))).deadlines[dk]? = none := by
    intro dk
    rw [hdeadlines]
    simp [installBase, BrokerState.new]
  have hrest := installDeadlines_eq hinstall
  refine ⟨fun dk e he => ?_, fun hone => ?_, ?_, ?_⟩
  · refine (installDeadlines_from hinstall dk e he).resolve_left fun he => ?_
    rw [hempty] at he
    cases he
  · refine OneDeadline.installs (fun dk dk' e e' he => ?_) hinstall hone.nodup fun d _ dk e he => ?_
    · rw [hempty] at he
      cases he
    · rw [hempty] at he
      cases he
  · rw [hrest]
    refine le_trans ?_ hreads.ge
    simp only [installBase]
    omega
  · rw [hrest]
    exact hpast

end Broker

end LiveMutex
