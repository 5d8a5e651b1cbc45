/-
What the log store keeps beside its entries is what one would compute from them.

Every operation has its own way to keep the caches up to date: an append extends
them, a repair cuts them and extends what is left, the rest builds them anew. The
one place where a cache could go wrong is the map of request ids, which is to hold
the entries behind the snapshot only: an appended entry has to be behind it.
-/
import LiveMutex.Raft.StoreChecks

namespace LiveMutex.Raft

namespace RaftLogStore

variable {κ π : Type} {codec : StoreCodec κ π} {io : StoreIo κ π} {s s' : RaftLogStore κ}
  {l r es : List (LogEntry κ)} {enough : Prop}

/-! ## Exact caches -/

/-- Every cache is what computing it anew gives. -/
structure Exact (codec : StoreCodec κ π) (s : RaftLogStore κ) : Prop where
  last : (s.lastIndex, s.lastTerm) = endOf s.retainedLogEntries s.latestSnapshot
  terms : s.termIndexes = termIndexesFromEntries s.retainedLogEntries
  bytes : s.retainedLogEntryBytes = serializedLogEntryLens codec s.retainedLogEntries
  fingerprints : retainedRequestIdentityFingerprintsAfter codec s.retainedLogEntries s.snapshotIndex =
    .ok s.retainedRequestFingerprints

/-- What the operations rely on and keep: exact caches, entries in the order of
their indexes that fit a `u64`, and no end before the snapshot. -/
structure Sound (codec : StoreCodec κ π) (s : RaftLogStore κ) : Prop extends Exact codec s where
  ordered : Ordered s.retainedLogEntries
  bounded : ∀ e ∈ s.retainedLogEntries, 1 ≤ e.index ∧ e.index ≤ u64Max
  reaches : ∀ e ∈ s.retainedLogEntries.getLast?, s.snapshotIndex ≤ e.index

theorem fingerprintsAfter_eq_ok {n : Nat} {m : OrdMap String RetainedRequestIdentityFingerprint} :
    retainedRequestIdentityFingerprintsAfter codec l n = .ok m ↔
      addRetainedRequestIdentityEntries codec ∅ (behind n l) = (.ok (), m) := by
  simp only [retainedRequestIdentityFingerprintsAfter, behind]
  split
  · rename_i h
    simp only [h, Except.ok.injEq, Prod.mk.injEq, true_and]
  · rename_i h
    simp [h]

theorem termIndexesFromEntries_append :
    termIndexesFromEntries (l ++ r) = (termIndexesFromEntries l).extend r :=
  List.foldl_append

theorem serializedLogEntryLens_append : serializedLogEntryLens codec (l ++ r) =
    serializedLogEntryLens codec l ++ serializedLogEntryLens codec r :=
  List.map_append

theorem endOf_getLast {e : LogEntry κ} {snapshot : Option StoredSnapshotMetadata} (h : l.getLast? = some e) :
    endOf l snapshot = (e.index, e.term) := by
  simp [endOf, h]

theorem endOf_nil {snapshot : Option StoredSnapshotMetadata} :
    endOf ([] : List (LogEntry κ)) snapshot =
      ((snapshot.map fun m => (m.lastIncludedIndex, m.lastIncludedTerm)).getD (0, 0)) := rfl

theorem Exact.lastIndex_of_getLast (h : Exact codec s) {e : LogEntry κ} (he : s.retainedLogEntries.getLast? = some e) :
    s.lastIndex = e.index ∧ s.lastTerm = e.term := by
  have hlast := h.last
  rw [endOf_getLast he, Prod.mk.injEq] at hlast
  exact hlast

theorem Exact.lastIndex_of_nil (h : Exact codec s) (hnil : s.retainedLogEntries = []) :
    s.lastIndex = s.snapshotIndex := by
  have hlast := h.last
  rw [hnil, endOf_nil, Prod.mk.injEq] at hlast
  rw [hlast.1, snapshotIndex]
  cases s.latestSnapshot <;> rfl

/-- The log ends at the snapshot or behind it. -/
theorem Sound.snapshotIndex_le (h : Sound codec s) : s.snapshotIndex ≤ s.lastIndex := by
  cases hlast : s.retainedLogEntries.getLast? with
  | none => exact Nat.le_of_eq (h.lastIndex_of_nil (List.getLast?_eq_none_iff.1 hlast)).symm
  | some e =>
    rw [(h.lastIndex_of_getLast hlast).1]
    exact h.reaches e hlast

theorem Sound.index_le (h : Sound codec s) {e : LogEntry κ} (he : e ∈ s.retainedLogEntries) :
    e.index ≤ s.lastIndex := by
  obtain ⟨b, hb⟩ : ∃ b, s.retainedLogEntries.getLast? = some b :=
    ⟨_, List.getLast?_eq_some_getLast (List.ne_nil_of_mem he)⟩
  rw [(h.lastIndex_of_getLast hb).1]
  exact h.ordered.le_getLast hb he

/-- The ids in the map were used behind the snapshot and before the end of the log. -/
theorem Sound.used (h : Sound codec s) {id : String} {f : RetainedRequestIdentityFingerprint}
    (hf : s.retainedRequestFingerprints[id]? = some f) : s.snapshotIndex < f.firstIndex ∧ f.firstIndex ≤ s.lastIndex := by
  have hadd := fingerprintsAfter_eq_ok.1 h.fingerprints
  have hbehind : Ordered (behind s.snapshotIndex s.retainedLogEntries) :=
    List.Pairwise.sublist (List.drop_sublist _ _) h.ordered
  have hget := add_get (m := ∅) id (fun id f hf => by simp at hf) hbehind (by rw [hadd])
  rw [hadd] at hget
  simp only [hf, Std.ExtTreeMap.getElem?_empty, Option.none_or] at hget
  obtain ⟨e, he, hindex⟩ := firstUse_index hget.symm
  rw [hindex]
  exact ⟨h.ordered.lt_of_mem_behind he, h.index_le (behind_subset he)⟩

/-! ## Appending -/

theorem Sound.withFingerprints (h : Sound codec s) (hbehind : ∀ e ∈ r, s.snapshotIndex < e.index)
    {m : OrdMap String RetainedRequestIdentityFingerprint}
    (hadd : addRetainedRequestIdentityEntries codec s.retainedRequestFingerprints r = (.ok (), m)) :
    retainedRequestIdentityFingerprintsAfter codec (s.retainedLogEntries ++ r) s.snapshotIndex = .ok m := by
  rw [fingerprintsAfter_eq_ok, behind_append hbehind, add_append, fingerprintsAfter_eq_ok.1 h.fingerprints]
  exact hadd

/-- Entries behind the end of the log and behind the snapshot. -/
theorem Sound.extend (h : Sound codec s) (hne : r ≠ []) (hbehind : ∀ e ∈ r, s.snapshotIndex < e.index)
    (hend : ∀ e ∈ r, s.lastIndex ≤ e.index) (hr : Ordered r) (hb : ∀ e ∈ r, 1 ≤ e.index ∧ e.index ≤ u64Max)
    {m : OrdMap String RetainedRequestIdentityFingerprint}
    (hadd : addRetainedRequestIdentityEntries codec s.retainedRequestFingerprints r = (.ok (), m)) :
    Sound codec { s.extendRetained codec r with retainedRequestFingerprints := m } := by
  obtain ⟨e, he⟩ : ∃ e, r.getLast? = some e := ⟨_, List.getLast?_eq_some_getLast hne⟩
  have hlast : (s.retainedLogEntries ++ r).getLast? = some e := by
    rw [List.getLast?_append_of_ne_nil _ hne, he]
  constructor
  · constructor
    · simp only [extendRetained, he, endOf_getLast hlast, Option.map_some, Option.getD_some]
    · simp only [extendRetained, h.terms, termIndexesFromEntries_append]
    · simp only [extendRetained, h.bytes, serializedLogEntryLens_append]
    · exact h.withFingerprints hbehind hadd
  · refine List.pairwise_append.2 ⟨h.ordered, hr, fun a ha b hb => ?_⟩
    exact Nat.le_trans (h.index_le ha) (hend b hb)
  · intro a ha
    rcases List.mem_append.1 ha with ha | ha
    · exact h.bounded a ha
    · exact hb a ha
  · intro a ha
    have ha : (s.retainedLogEntries ++ r).getLast? = some a := ha
    rw [hlast] at ha
    cases ha
    exact Nat.le_of_lt (hbehind e (List.mem_of_getLast? he))

/-- The check on a local or an appended suffix is the one its ids need. -/
theorem Sound.add_ok (h : Sound codec s) {snapshot : OrdMap String String}
    (hok : validateRepairedRequestIdentityContext codec snapshot s.retainedRequestFingerprints s.lastIndex r = .ok ()) :
    (addRetainedRequestIdentityEntries codec s.retainedRequestFingerprints r).1 = .ok () := by
  have hadd := add_ok_of_context hok
  rwa [truncate_eq_self fun id f hf => ?_] at hadd
  have := h.used hf
  omega

/-! ## Repairing -/

/-- The log is cut before an index behind the snapshot, and goes on from there. -/
theorem Sound.repair (h : Sound codec s) {d : Nat} (hd : s.snapshotIndex < d) (hne : r ≠ []) (hr : Ordered r)
    (hfrom : ∀ e ∈ r, d ≤ e.index) (hb : ∀ e ∈ r, e.index ≤ u64Max) {k n : Nat}
    (hk : k = retainedEntryLowerBound s.retainedLogEntries d)
    (hn : n = ((s.retainedLogEntries.take k).getLast?.map (·.index)).getD 0)
    {m : OrdMap String RetainedRequestIdentityFingerprint}
    (hadd : addRetainedRequestIdentityEntries codec
      (truncateRetainedRequestIdentityFingerprints s.retainedRequestFingerprints n) r = (.ok (), m)) :
    Sound codec { s with
      retainedLogEntries := s.retainedLogEntries.take k ++ r
      retainedLogEntryBytes := s.retainedLogEntryBytes.take k ++ serializedLogEntryLens codec r
      retainedRequestFingerprints := m
      lastIndex := (endOf (s.retainedLogEntries.take k ++ r) s.latestSnapshot).1
      lastTerm := (endOf (s.retainedLogEntries.take k ++ r) s.latestSnapshot).2
      termIndexes := termIndexesFromEntries (s.retainedLogEntries.take k ++ r)
      ageCompactionCache := none } := by
  have hkept : ∀ e ∈ s.retainedLogEntries.take k, e.index < d := fun e he => lt_of_mem_take (hk ▸ he)
  have hcut : ∀ e ∈ s.retainedLogEntries.drop k, d ≤ e.index := fun e he => h.ordered.le_of_mem_drop (hk ▸ he)
  have hordered : Ordered (s.retainedLogEntries.take k) := List.Pairwise.sublist (List.take_sublist _ _) h.ordered
  obtain ⟨e, he⟩ : ∃ e, r.getLast? = some e := ⟨_, List.getLast?_eq_some_getLast hne⟩
  have hlast : (s.retainedLogEntries.take k ++ r).getLast? = some e := by
    rw [List.getLast?_append_of_ne_nil _ hne, he]
  -- the last index that is kept bounds what is kept, and nothing else
  have hle : ∀ a ∈ s.retainedLogEntries.take k, a.index ≤ n := by
    intro a ha
    obtain ⟨b, hb⟩ : ∃ b, (s.retainedLogEntries.take k).getLast? = some b :=
      ⟨_, List.getLast?_eq_some_getLast (List.ne_nil_of_mem ha)⟩
    rw [hn, hb]
    exact hordered.le_getLast hb ha
  have hlt : n < d := by
    rw [hn]
    cases hb : (s.retainedLogEntries.take k).getLast? with
    | none => exact Nat.lt_of_le_of_lt (Nat.zero_le _) hd
    | some b => exact hkept b (List.mem_of_getLast? hb)
  have huses : addRetainedRequestIdentityEntries codec ∅ (behind s.snapshotIndex (s.retainedLogEntries.take k)) =
      (.ok (), truncateRetainedRequestIdentityFingerprints s.retainedRequestFingerprints n) := by
    have hall := fingerprintsAfter_eq_ok.1 h.fingerprints
    rw [← List.take_append_drop k s.retainedLogEntries,
      behind_append fun a ha => Nat.lt_of_lt_of_le hd (hcut a ha)] at hall
    refine truncate_add (List.pairwise_append.2 ⟨?_, ?_, fun a ha b hb => ?_⟩) hall (fun a ha => ?_) fun a ha => ?_
    · exact List.Pairwise.sublist (List.drop_sublist _ _) hordered
    · exact List.Pairwise.sublist (List.drop_sublist _ _) h.ordered
    · have := hkept a (behind_subset ha)
      have := hcut b hb
      omega
    · have := hordered.lt_of_mem_behind ha
      have := hle a (behind_subset ha)
      omega
    · have := hcut a ha
      omega
  constructor
  · constructor
    · rfl
    · rfl
    · simp only [h.bytes, serializedLogEntryLens, List.map_append, List.map_take]
    · refine fingerprintsAfter_eq_ok.2 ?_
      have hsnap : ∀ a ∈ r, s.snapshotIndex < a.index := fun a ha => Nat.lt_of_lt_of_le hd (hfrom a ha)
      show addRetainedRequestIdentityEntries codec ∅ (behind s.snapshotIndex _) = _
      rw [behind_append hsnap, add_append, huses]
      exact hadd
  · refine List.pairwise_append.2 ⟨hordered, hr, fun a ha b hb => ?_⟩
    have := hkept a ha
    have := hfrom b hb
    omega
  · intro a ha
    rcases List.mem_append.1 ha with ha | ha
    · exact h.bounded a (List.take_subset _ _ ha)
    · have := hfrom a ha
      have := hb a ha
      omega
  · intro a ha
    have ha : (s.retainedLogEntries.take k ++ r).getLast? = some a := ha
    rw [hlast] at ha
    cases ha
    exact Nat.le_of_lt (Nat.lt_of_lt_of_le hd (hfrom e (List.mem_of_getLast? he)))

/-! ## Building the caches anew -/

/-- What a log that passes its checks gives. -/
theorem valid_sound {snapshot : Option StoredSnapshotMetadata}
    (h : validateLogEntriesForSnapshot codec l snapshot = .ok ()) :
    Ordered l ∧ (∀ e ∈ l, 1 ≤ e.index ∧ e.index ≤ u64Max) ∧
      ∀ e ∈ l.getLast?, (snapshot.map (·.lastIncludedIndex)).getD 0 ≤ e.index := by
  obtain ⟨hpasses, hboundary⟩ := validateLogEntriesForSnapshot_eq_ok.1 h
  obtain ⟨f, hf⟩ := hpasses.contiguous_from
  have hends : ∀ first ∈ l.head?, ∃ last, l.getLast? = some last := by
    intro first hfirst
    exact ⟨_, List.getLast?_eq_some_getLast (List.ne_nil_of_mem (List.mem_of_head? hfirst))⟩
  have hfirst : ∀ e ∈ l.head?, e.index ≤ u64Max := by
    intro e he
    obtain ⟨last, hlast⟩ := hends e he
    have hok := hboundary e he last hlast
    cases snapshot with
    | none =>
      have : e.index = 1 := hok
      rw [this]
      decide
    | some m => exact Nat.le_trans hok.2.2.1 hok.2.1
  refine ⟨ordered_of_contiguous hf, fun e he => ⟨(hpasses.admissible e he).index, hpasses.le_u64Max hfirst e he⟩,
    fun e he => ?_⟩
  cases snapshot with
  | none => exact Nat.zero_le _
  | some m =>
    have hne : l ≠ [] := List.ne_nil_of_mem (List.mem_of_getLast? he)
    exact (hboundary _ (List.head?_eq_some_head hne) e he).1

theorem replaceRetainedLogState_sound {sizes : List Nat} (hsizes : sizes = serializedLogEntryLens codec l)
    (hvalid : validateLogEntriesForSnapshot codec l s.latestSnapshot = .ok ())
    (hok : s.replaceRetainedLogState codec l sizes = .ok s') : Sound codec s' := by
  subst hsizes
  obtain ⟨hordered, hbounded, hreaches⟩ := valid_sound hvalid
  simp only [replaceRetainedLogState, check_bind_eq_ok, map_eq_ok] at hok
  obtain ⟨-, m, hm, rfl⟩ := hok
  exact ⟨⟨rfl, rfl, rfl, hm⟩, hordered, hbounded, hreaches⟩

theorem reconcile_valid {snapshot : Option StoredSnapshotMetadata} {trailing : Nat} {rewrite : Bool}
    (hl : Passes codec l) (hok : reconcilePersistedLogWithSnapshot l snapshot trailing = .ok (r, rewrite)) :
    validateLogEntriesForSnapshot codec r snapshot = .ok () := by
  have hnil : validateLogEntriesForSnapshot codec ([] : List (LogEntry κ)) snapshot = .ok () :=
    validateLogEntriesForSnapshot_eq_ok.2 ⟨passes_nil, by simp⟩
  have hchecked : ∀ {es : List (LogEntry κ)}, Passes codec es → validateSnapshotLogBoundary es snapshot = .ok () →
      validateLogEntriesForSnapshot codec es snapshot = .ok () :=
    fun hp hb => validateLogEntriesForSnapshot_eq_ok.2 ⟨hp, validateSnapshotLogBoundary_eq_ok.1 hb⟩
  unfold reconcilePersistedLogWithSnapshot at hok
  split at hok
  · obtain ⟨_, hboundary, heq⟩ := map_eq_ok.1 hok
    cases heq
    exact hchecked hl hboundary
  · split at hok
    · cases hok
      exact hnil
    split at hok
    · cases hok
    split at hok
    · cases hok
    split at hok
    · split at hok
      · simp only at hok
        obtain ⟨_, hboundary, heq⟩ := map_eq_ok.1 hok
        cases heq
        refine hchecked ?_ hboundary
        rw [← List.take_append_drop (retainedEntryLowerBound l _) l] at hl
        exact (passes_append.1 hl).2.1
      · cases hok
        exact hnil
    · obtain ⟨_, hboundary, heq⟩ := map_eq_ok.1 hok
      cases heq
      exact hchecked hl hboundary
  · rename_i hends
    cases hok
    cases l with
    | nil => exact hnil
    | cons e l => exact (hends e _ rfl (List.getLast?_eq_some_getLast (List.cons_ne_nil e l))).elim

theorem readRetained_valid {snapshot : Option StoredSnapshotMetadata} {trailing : Nat}
    (hok : readRetained codec io snapshot trailing = .ok l) : validateLogEntriesForSnapshot codec l snapshot = .ok () := by
  simp only [readRetained, readLogEntries, bind_eq_ok, map_eq_ok] at hok
  obtain ⟨persisted, ⟨_, -, _, hpasses, rfl⟩, ⟨retained, rewrite⟩, hreconcile, hok⟩ := hok
  have hretained : retained = l := by
    split at hok
    · obtain ⟨_, _, rfl⟩ := map_eq_ok.1 hok
      rfl
    · cases hok
      rfl
  exact hretained ▸ reconcile_valid hpasses hreconcile

/-! ## What an operation can do -/

/-- What can be appended or put in place of a suffix: entries in order, behind the snapshot. -/
structure Incoming (s : RaftLogStore κ) (rest : List (LogEntry κ)) : Prop where
  nonempty : rest ≠ []
  ordered : Ordered rest
  behind : ∀ e ∈ rest, s.snapshotIndex < e.index
  bounded : ∀ e ∈ rest, e.index ≤ u64Max

theorem Incoming.head_le {e : LogEntry κ} (h : Incoming s (e :: r)) : ∀ a ∈ e :: r, e.index ≤ a.index := by
  intro a ha
  rcases List.mem_cons.1 ha with rfl | ha
  · exact Nat.le_refl _
  · exact List.rel_of_pairwise_cons h.ordered ha

/-- The store behind an operation, as it can differ from the store before. `enough`
is that there are enough numbers for the entries of a local append. -/
inductive Change (codec : StoreCodec κ π) (s : RaftLogStore κ) (enough : Prop) : RaftLogStore κ → Prop where
  | same : Change codec s enough s
  /-- Entries behind the end. -/
  | extended {r : List (LogEntry κ)} {m : OrdMap String RetainedRequestIdentityFingerprint} (incoming : Incoming s r)
      (atEnd : ∀ e ∈ r, s.lastIndex ≤ e.index)
      (numbered : enough → RaftLogState.Contiguous (s.lastIndex + 1) r)
      (added : addRetainedRequestIdentityEntries codec s.retainedRequestFingerprints r = (.ok (), m)) :
      Change codec s enough { s.extendRetained codec r with retainedRequestFingerprints := m }
  /-- The log cut before an index, and other entries from there on. -/
  | repaired {e : LogEntry κ} {r : List (LogEntry κ)} {m : OrdMap String RetainedRequestIdentityFingerprint} {k n : Nat}
      (incoming : Incoming s (e :: r)) (cut : k = retainedEntryLowerBound s.retainedLogEntries e.index)
      (kept : n = ((s.retainedLogEntries.take k).getLast?.map (·.index)).getD 0)
      (checked : validateRepairedLogSuffix codec s.retainedLogEntries k (e :: r) s.latestSnapshot = .ok ())
      (added : addRetainedRequestIdentityEntries codec
        (truncateRetainedRequestIdentityFingerprints s.retainedRequestFingerprints n) (e :: r) = (.ok (), m)) :
      Change codec s enough { s with
        retainedLogEntries := s.retainedLogEntries.take k ++ e :: r
        retainedLogEntryBytes := s.retainedLogEntryBytes.take k ++ serializedLogEntryLens codec (e :: r)
        retainedRequestFingerprints := m
        lastIndex := (endOf (s.retainedLogEntries.take k ++ e :: r) s.latestSnapshot).1
        lastTerm := (endOf (s.retainedLogEntries.take k ++ e :: r) s.latestSnapshot).2
        termIndexes := termIndexesFromEntries (s.retainedLogEntries.take k ++ e :: r)
        ageCompactionCache := none }
  /-- Everything built anew from a log that was checked. -/
  | rebuilt {s₀ s' : RaftLogStore κ} {l : List (LogEntry κ)}
      (valid : validateLogEntriesForSnapshot codec l s₀.latestSnapshot = .ok ())
      (replaced : s₀.replaceRetainedLogState codec l (serializedLogEntryLens codec l) = .ok s') : Change codec s enough s'
  /-- Another snapshot with the same end. -/
  | resnapped {existing metadata : StoredSnapshotMetadata} {responses : OrdMap String String}
      (latest : s.latestSnapshot = some existing) (index : metadata.lastIncludedIndex = existing.lastIncludedIndex)
      (term : metadata.lastIncludedTerm = existing.lastIncludedTerm) :
      Change codec s enough { s with latestSnapshot := some metadata, snapshotClientResponseFingerprints := responses }
  /-- A snapshot ahead of the latest, at or before the end of the entries. -/
  | snapshotted {metadata : StoredSnapshotMetadata} (responses : OrdMap String String)
      {m : OrdMap String RetainedRequestIdentityFingerprint} (ahead : s.snapshotIndex ≤ metadata.lastIncludedIndex)
      (term : ∀ t, s.termAtIndex metadata.lastIncludedIndex = some t → t = metadata.lastIncludedTerm)
      (atEnd : ∀ e ∈ s.retainedLogEntries.getLast?, metadata.lastIncludedIndex ≤ e.index)
      (collected : retainedRequestIdentityFingerprintsAfter codec s.retainedLogEntries metadata.lastIncludedIndex = .ok m) :
      Change codec s enough { s with
        latestSnapshot := some metadata, snapshotClientResponseFingerprints := responses
        retainedRequestFingerprints := m
        lastIndex := if s.lastIndex ≤ metadata.lastIncludedIndex then metadata.lastIncludedIndex else s.lastIndex
        lastTerm := if s.lastIndex ≤ metadata.lastIncludedIndex then metadata.lastIncludedTerm else s.lastTerm }

/-- The term of the last entry is the one its index has. -/
theorem Sound.termAtIndex_last (h : Sound codec s) {e : LogEntry κ} (he : s.retainedLogEntries.getLast? = some e) :
    s.termAtIndex e.index = some e.term := by
  have hpos := (h.bounded e (List.mem_of_getLast? he)).1
  have hterm : s.termIndexes.termByIndex[e.index]? = some e.term := by
    rw [h.terms, ← List.dropLast_append_getLast? e he, termIndexesFromEntries_append]
    show ((termIndexesFromEntries _).push e).termByIndex[e.index]? = some e.term
    rw [TermIndexes.push, OrdMap.get_insert, if_pos rfl]
  simp [termAtIndex, hterm, show e.index ≠ 0 by omega]

/-- The latest snapshot is replaced by one with the same end. -/
theorem Sound.resnap (h : Sound codec s) {existing metadata : StoredSnapshotMetadata}
    (hlatest : s.latestSnapshot = some existing) (hindex : metadata.lastIncludedIndex = existing.lastIncludedIndex)
    (hterm : metadata.lastIncludedTerm = existing.lastIncludedTerm) {responses : OrdMap String String} :
    Sound codec { s with latestSnapshot := some metadata, snapshotClientResponseFingerprints := responses } := by
  have hsnap : s.snapshotIndex = existing.lastIncludedIndex := by simp [snapshotIndex, hlatest]
  refine ⟨⟨?_, h.terms, h.bytes, ?_⟩, h.ordered, h.bounded, ?_⟩
  · rw [h.last, hlatest]
    simp [endOf, hindex, hterm]
  · have hfp := h.fingerprints
    rw [hsnap] at hfp
    simpa [snapshotIndex, hindex] using hfp
  · have hreach := h.reaches
    rw [hsnap] at hreach
    simpa [snapshotIndex, hindex] using hreach

/-- A node's own snapshot, ahead of the latest one. -/
theorem Sound.snapshot (h : Sound codec s) {metadata : StoredSnapshotMetadata} {responses : OrdMap String String}
    {m : OrdMap String RetainedRequestIdentityFingerprint} (hahead : s.snapshotIndex ≤ metadata.lastIncludedIndex)
    (hterm : ∀ t, s.termAtIndex metadata.lastIncludedIndex = some t → t = metadata.lastIncludedTerm)
    (hend : ∀ e ∈ s.retainedLogEntries.getLast?, metadata.lastIncludedIndex ≤ e.index)
    (hm : retainedRequestIdentityFingerprintsAfter codec s.retainedLogEntries metadata.lastIncludedIndex = .ok m) :
    Sound codec { s with
      latestSnapshot := some metadata, snapshotClientResponseFingerprints := responses
      retainedRequestFingerprints := m
      lastIndex := if s.lastIndex ≤ metadata.lastIncludedIndex then metadata.lastIncludedIndex else s.lastIndex
      lastTerm := if s.lastIndex ≤ metadata.lastIncludedIndex then metadata.lastIncludedTerm else s.lastTerm } := by
  refine ⟨⟨?_, h.terms, h.bytes, hm⟩, h.ordered, h.bounded, hend⟩
  cases hlast : s.retainedLogEntries.getLast? with
  | none =>
    -- without entries the log ends at the snapshot
    have hnil := List.getLast?_eq_none_iff.1 hlast
    have hle : s.lastIndex ≤ metadata.lastIncludedIndex := by
      rw [h.lastIndex_of_nil hnil]
      exact hahead
    simp only [if_pos hle, hnil, endOf_nil, Option.map_some, Option.getD_some]
  | some e =>
    obtain ⟨hindex, hlastTerm⟩ := h.lastIndex_of_getLast hlast
    have hle := hend e hlast
    rw [endOf_getLast hlast]
    by_cases heq : s.lastIndex ≤ metadata.lastIncludedIndex
    · -- the last entry is the snapshot's own
      have heq' : metadata.lastIncludedIndex = e.index := by omega
      simp only [if_pos heq]
      rw [← hterm e.term (heq' ▸ h.termAtIndex_last hlast), heq']
    · simp only [if_neg heq]
      rw [hindex, hlastTerm]

theorem Change.sound (h : Sound codec s) (hc : Change codec s enough s') : Sound codec s' := by
  cases hc with
  | same => exact h
  | extended incoming atEnd numbered added =>
    refine h.extend incoming.nonempty incoming.behind atEnd incoming.ordered (fun e he => ⟨?_, ?_⟩) added
    · have := incoming.behind e he
      omega
    · exact incoming.bounded e he
  | repaired incoming cut kept checked added =>
    exact h.repair (incoming.behind _ (by simp)) incoming.nonempty incoming.ordered incoming.head_le incoming.bounded
      cut kept added
  | rebuilt valid replaced => exact replaceRetainedLogState_sound rfl valid replaced
  | resnapped latest index term => exact h.resnap latest index term
  | snapshotted responses ahead term atEnd collected => exact h.snapshot ahead term atEnd collected

/-! ## Logs without a gap -/

/-- A store whose entries are numbered without a gap, and leave none between the
snapshot and the first of them. -/
structure Whole (codec : StoreCodec κ π) (s : RaftLogStore κ) : Prop extends Sound codec s where
  contiguous : ∃ f, RaftLogState.Contiguous f s.retainedLogEntries
  covers : ∀ e ∈ s.retainedLogEntries.head?, e.index ≤ s.snapshotIndex + 1

theorem Whole.of_valid (h : Exact codec s)
    (hvalid : validateLogEntriesForSnapshot codec s.retainedLogEntries s.latestSnapshot = .ok ()) : Whole codec s := by
  obtain ⟨hordered, hbounded, hreaches⟩ := valid_sound hvalid
  obtain ⟨hpasses, hboundary⟩ := validateLogEntriesForSnapshot_eq_ok.1 hvalid
  refine ⟨⟨h, hordered, hbounded, hreaches⟩, hpasses.contiguous_from, fun e he => ?_⟩
  have hne : s.retainedLogEntries ≠ [] := List.ne_nil_of_mem (List.mem_of_head? he)
  have hok := hboundary e he _ (List.getLast?_eq_some_getLast hne)
  rw [snapshotIndex]
  cases hs : s.latestSnapshot with
  | none =>
    rw [hs] at hok
    have : e.index = 1 := hok
    simp [this]
  | some m =>
    rw [hs] at hok
    exact hok.2.2.1

theorem Whole.replaced {s₀ : RaftLogStore κ} (hvalid : validateLogEntriesForSnapshot codec l s₀.latestSnapshot = .ok ())
    (hok : s₀.replaceRetainedLogState codec l (serializedLogEntryLens codec l) = .ok s') : Whole codec s' := by
  have hexact := (replaceRetainedLogState_sound rfl hvalid hok).toExact
  simp only [replaceRetainedLogState, check_bind_eq_ok, map_eq_ok] at hok
  obtain ⟨-, m, hm, rfl⟩ := hok
  exact .of_valid hexact hvalid

/-- A store that was just opened. -/
theorem openWith_whole {trailing commitIndex : Nat} (hok : openWith codec io trailing commitIndex = .ok s) :
    Whole codec s := by
  simp only [openWith, bind_eq_ok] at hok
  obtain ⟨file, -, fingerprints, -, retained, hread, hreplace⟩ := hok
  exact .replaced (readRetained_valid hread) hreplace

/-- Entries numbered on from the end leave no gap. -/
theorem Whole.extended (h : Whole codec s) (hr : RaftLogState.Contiguous (s.lastIndex + 1) r) :
    (∃ f, RaftLogState.Contiguous f (s.retainedLogEntries ++ r)) ∧
      ∀ e ∈ (s.retainedLogEntries ++ r).head?, e.index ≤ s.snapshotIndex + 1 := by
  obtain ⟨f, hf⟩ := h.contiguous
  refine ⟨hf.join hr fun a ha b hb => ?_, fun e he => ?_⟩
  · obtain ⟨tail, rfl⟩ := List.head?_eq_some_iff.1 hb
    rw [← (h.lastIndex_of_getLast ha).1]
    exact hr.1
  · cases hnil : s.retainedLogEntries with
    | nil =>
      rw [hnil, List.nil_append] at he
      obtain ⟨tail, rfl⟩ := List.head?_eq_some_iff.1 he
      rw [← h.lastIndex_of_nil hnil]
      exact Nat.le_of_eq hr.1
    | cons a l =>
      rw [List.head?_append_of_ne_nil _ (by simp [hnil])] at he
      exact h.covers e he

/-- What a repair has checked leaves no gap. -/
theorem Whole.repaired (h : Whole codec s) {k : Nat} {e : LogEntry κ}
    (hchecked : validateRepairedLogSuffix codec s.retainedLogEntries k (e :: r) s.latestSnapshot = .ok ()) :
    (∃ f, RaftLogState.Contiguous f (s.retainedLogEntries.take k ++ e :: r)) ∧
      ∀ a ∈ (s.retainedLogEntries.take k ++ e :: r).head?, a.index ≤ s.snapshotIndex + 1 := by
  obtain ⟨f, hf⟩ := h.contiguous
  obtain ⟨hpasses, hjoin, hboundary⟩ := validateRepairedLogSuffix_eq_ok hchecked
  obtain ⟨g, hg⟩ := hpasses.contiguous_from
  refine ⟨(hf.take k).join hg fun a ha b hb => (hjoin a ha b hb).index, fun a ha => ?_⟩
  cases hkept : s.retainedLogEntries.take k with
  | nil =>
    rw [hkept] at ha hboundary
    obtain rfl : e = a := by simpa using ha
    have hok := validateSnapshotLogBoundary_eq_ok.1 hboundary e rfl _ (List.getLast?_eq_some_getLast (List.cons_ne_nil e r))
    rw [snapshotIndex]
    cases hs : s.latestSnapshot with
    | none =>
      rw [hs] at hok
      have : e.index = 1 := hok
      simp [this]
    | some m =>
      rw [hs] at hok
      exact hok.2.2.1
  | cons b kept =>
    rw [hkept] at ha
    refine h.covers a ?_
    rw [← List.take_append_drop k s.retainedLogEntries, hkept]
    exact ha

theorem Change.whole (h : Whole codec s) (hc : Change codec s enough s') (henough : enough) : Whole codec s' := by
  have hsound := hc.sound h.toSound
  cases hc with
  | same => exact h
  | extended incoming atEnd numbered added =>
    obtain ⟨hrun, hcovers⟩ := h.extended (numbered henough)
    exact ⟨hsound, hrun, hcovers⟩
  | repaired incoming cut kept checked added =>
    obtain ⟨hrun, hcovers⟩ := h.repaired checked
    exact ⟨hsound, hrun, hcovers⟩
  | rebuilt valid replaced => exact .replaced valid replaced
  | @resnapped existing metadata responses latest index term =>
    refine ⟨hsound, h.contiguous, fun e he => ?_⟩
    have hcovers := h.covers e he
    rw [snapshotIndex, latest] at hcovers
    simpa [snapshotIndex, index] using hcovers
  | snapshotted responses ahead term atEnd collected =>
    refine ⟨hsound, h.contiguous, fun e he => ?_⟩
    exact Nat.le_trans (h.covers e he) (Nat.succ_le_succ ahead)

/-! ## The operations -/

/-- What holds of the store at every `?`, and behind the rest, holds of the outcome. -/
theorem attempt_rule {β ρ : Type} {P : Outcome κ ρ → Prop} {result : Except BrokerRaftError β} {next : β → Outcome κ ρ}
    (herr : ∀ err, P (.error err, s)) (hnext : ∀ value, result = .ok value → P (next value)) :
    P (s.attempt result next) := by
  unfold attempt
  split
  · exact herr _
  · exact hnext _ rfl

/-- An operation that stops at a `?` changes nothing. -/
theorem attempt_change {β ρ : Type} {result : Except BrokerRaftError β} {next : β → Outcome κ ρ}
    (hnext : ∀ value, result = .ok value → Change codec s enough (next value).2) :
    Change codec s enough (s.attempt result next).2 :=
  attempt_rule (P := fun o => Change codec s enough o.2) (fun _ => .same) hnext

theorem ite_change {ρ : Type} {c : Prop} [Decidable c] {a b : Outcome κ ρ} (ha : c → Change codec s enough a.2)
    (hb : ¬c → Change codec s enough b.2) : Change codec s enough (if c then a else b).2 := by
  split
  · exact ha ‹c›
  · exact hb ‹¬c›

theorem failReloaded_change {ρ : Type} {what : String} {err : BrokerRaftError} :
    Change codec s enough (s.failReloaded codec io (ρ := ρ) what err).2 := by
  unfold failReloaded
  split
  · exact .same
  · rename_i s' hreload
    obtain ⟨retained, hread, hreplace⟩ := bind_eq_ok.1 hreload
    exact .rebuilt (readRetained_valid hread) hreplace

theorem batchEntries_index {lastIndex term createdAtMs : Nat} {commands : List κ} : ∀ {offset : Nat},
    ∀ e ∈ batchEntries lastIndex term createdAtMs offset commands,
      ∃ k, offset ≤ k ∧ e.index = saturatingAdd lastIndex (k + 1) := by
  induction commands with
  | nil => intro offset e he; cases he
  | cons command commands ih =>
    intro offset e he
    rcases List.mem_cons.1 he with rfl | he
    · exact ⟨offset, Nat.le_refl _, rfl⟩
    · obtain ⟨k, hk, hindex⟩ := ih e he
      exact ⟨k, by omega, hindex⟩

theorem batchEntries_ordered {lastIndex term createdAtMs : Nat} {commands : List κ} : ∀ {offset : Nat},
    Ordered (batchEntries lastIndex term createdAtMs offset commands) := by
  induction commands with
  | nil => intro offset; exact .nil
  | cons command commands ih =>
    intro offset
    refine List.pairwise_cons.2 ⟨fun e he => ?_, ih⟩
    obtain ⟨k, hk, hindex⟩ := batchEntries_index e he
    rw [hindex]
    simp only [saturatingAdd]
    omega

theorem batchEntries_ne_nil {lastIndex term createdAtMs offset : Nat} {commands : List κ} (h : commands ≠ []) :
    batchEntries lastIndex term createdAtMs offset commands ≠ [] := by
  cases commands with
  | nil => exact absurd rfl h
  | cons command commands => exact List.cons_ne_nil _ _

/-- A store ends within a `u64`, or with a snapshot that does not. -/
theorem Sound.lastIndex_le (h : Sound codec s) : s.lastIndex ≤ max u64Max s.snapshotIndex := by
  cases hlast : s.retainedLogEntries.getLast? with
  | none =>
    rw [h.lastIndex_of_nil (List.getLast?_eq_none_iff.1 hlast)]
    omega
  | some e =>
    rw [(h.lastIndex_of_getLast hlast).1]
    have := (h.bounded e (List.mem_of_getLast? hlast)).2
    omega

theorem batchEntries_contiguous {lastIndex term createdAtMs : Nat} {commands : List κ} : ∀ {offset first : Nat},
    first = lastIndex + offset + 1 → lastIndex + offset + commands.length ≤ u64Max →
      RaftLogState.Contiguous first (batchEntries lastIndex term createdAtMs offset commands) := by
  induction commands with
  | nil => intro offset first _ _; trivial
  | cons command commands ih =>
    intro offset first hfirst hroom
    rw [List.length_cons] at hroom
    refine ⟨?_, ih (by omega) (by omega)⟩
    show saturatingAdd lastIndex (offset + 1) = first
    rw [saturatingAdd]
    omega

theorem appendBatch_change (h : Sound codec s) {term : Nat} {commands : List κ}
    (hroom : commands = [] ∨ s.snapshotIndex < u64Max) :
    Change codec s (s.lastIndex + commands.length ≤ u64Max) (s.appendBatch codec io term commands).2 := by
  unfold appendBatch
  split
  · exact .same
  rename_i hne
  have hne : commands ≠ [] := by simpa using hne
  have hroom : s.snapshotIndex < u64Max := hroom.resolve_left hne
  refine attempt_change fun _ _ => ?_
  split
  · exact .same
  split
  · exact .same
  refine attempt_change fun _ hcontext => attempt_change fun _ _ => ?_
  have hadd := h.add_ok hcontext
  have hreach := h.snapshotIndex_le
  have hend := h.lastIndex_le
  have hindex : ∀ e ∈ batchEntries s.lastIndex term io.unixMs 0 commands,
      s.snapshotIndex < e.index ∧ s.lastIndex ≤ e.index ∧ e.index ≤ u64Max := by
    intro e he
    obtain ⟨k, -, hindex⟩ := batchEntries_index e he
    rw [hindex, saturatingAdd]
    omega
  have hnumbered : s.lastIndex + commands.length ≤ u64Max →
      RaftLogState.Contiguous (s.lastIndex + 1) (batchEntries s.lastIndex term io.unixMs 0 commands) := by
    intro hfits
    exact batchEntries_contiguous rfl hfits
  have hchange := Change.extended ⟨batchEntries_ne_nil hne, batchEntries_ordered, fun e he => (hindex e he).1,
    fun e he => (hindex e he).2.2⟩ (fun e he => (hindex e he).2.1) hnumbered (Prod.ext hadd rfl)
  exact attempt_rule (P := fun o => Change codec s _ o.2) (fun _ => hchange) fun _ _ => hchange

/-! ### Entries from the leader -/

theorem rewriteFrom_change {e : LogEntry κ} {commit : Nat} {report : AppendReport} (hr : Incoming s (e :: r)) :
    Change codec s enough (s.rewriteFrom codec io commit report (e :: r)).2 := by
  unfold rewriteFrom
  simp only [List.head?_cons, Option.map_some, Option.getD_some]
  refine ite_change (fun _ => .same) fun _ => attempt_change fun _ _ => attempt_change fun _ hchecked =>
    attempt_change fun _ hcontext => ?_
  split
  · exact failReloaded_change
  have hadd := add_ok_of_context hcontext
  split
  · rename_i hfail
    rw [hadd] at hfail
    cases hfail
  · exact .repaired hr rfl rfl hchecked (Prod.ext hadd rfl)

theorem appendOnly_change (h : Sound codec s) {commit : Nat} {report : AppendReport} (hr : Incoming s r)
    (hend : RaftLogState.Contiguous (s.lastIndex + 1) r) :
    Change codec s enough (s.appendOnly codec io commit report r).2 := by
  unfold appendOnly
  simp only
  split
  · exact .same
  refine attempt_change fun _ hcontext => attempt_change fun _ _ => ?_
  have hadd := h.add_ok hcontext
  split
  · rename_i hfail
    rw [hadd] at hfail
    cases hfail
  · refine .extended hr (fun a ha => ?_) (fun _ => hend) (Prod.ext hadd rfl)
    obtain ⟨k, hk⟩ := List.mem_iff_getElem?.1 ha
    have := hend.get hk
    omega

theorem extend_termByIndex {t : TermIndexes} : (t.extend l).termByIndex =
    l.foldl (fun m e => m.insert e.index e.term) t.termByIndex := by
  induction l generalizing t with
  | nil => rfl
  | cons e l ih => exact ih

/-- An index with a term is one of the log. -/
theorem Sound.le_of_termByIndex (h : Sound codec s) {i term : Nat} (hi : s.termIndexes.termByIndex[i]? = some term) :
    i ≤ s.lastIndex := by
  by_contra hlt
  have hnot : i ∉ s.retainedLogEntries.map RaftLogEntry.index := by
    intro hmem
    obtain ⟨e, he, rfl⟩ := List.mem_map.1 hmem
    exact hlt (h.index_le he)
  rw [h.terms, termIndexesFromEntries, extend_termByIndex,
    OrdMap.get_foldl_insert_of_notMem RaftLogEntry.index RaftLogEntry.term _ _ hnot] at hi
  cases hi

section Leader

variable [DecidableEq κ]

/-- Where the scan stops. -/
theorem scanIncoming_stop (h : Sound codec s) {scan : RaftLogState.IncomingScan (Stamped κ)} {g : Nat}
    (hes : RaftLogState.Contiguous g es) (hg : g ≤ s.lastIndex + 1) (hs : s.scanIncoming es = .ok scan) :
    scan = .present ∨ ∃ e rest, e :: rest <:+ es ∧
      (scan = .rewrite (e :: rest) ∨
        scan = .append (e :: rest) ∧ RaftLogState.Contiguous (s.lastIndex + 1) (e :: rest)) := by
  induction es generalizing g with
  | nil =>
    cases hs
    exact .inl rfl
  | cons e es ih =>
    have hindex : e.index = g := hes.1
    simp only [scanIncoming] at hs
    split at hs
    · rename_i term hterm
      have hle := h.le_of_termByIndex hterm
      split at hs
      · split at hs
        · cases hs
        · split at hs
          · cases hs
          · refine (ih hes.2 (by omega) hs).imp_right ?_
            intro ⟨a, rest, hsuf, hrest⟩
            exact ⟨a, rest, hsuf.trans (List.suffix_cons _ _), hrest⟩
      · cases hs
        exact .inr ⟨e, es, List.suffix_rfl, .inl rfl⟩
    · cases hs
      refine .inr ⟨e, es, List.suffix_rfl, ?_⟩
      split
      · exact .inl rfl
      · rename_i hlt
        have : g = s.lastIndex + 1 := by omega
        exact .inr ⟨rfl, this ▸ hes⟩

omit [DecidableEq κ] in
theorem contiguous_incoming {prev f snap : Nat} (h : RaftLogState.Contiguous f es) (hf : prev < f) :
    RaftLogState.Contiguous (max f (snap + 1)) (es.dropWhile fun e => !(snap < e.index && prev < e.index)) ∧
      (es.dropWhile fun e => !(snap < e.index && prev < e.index)) = es.filter (snap < ·.index) := by
  induction es generalizing f with
  | nil => simp [RaftLogState.Contiguous]
  | cons b es ih =>
    have hb : b.index = f := h.1
    by_cases hsnap : snap < f
    · rw [List.dropWhile_cons_of_neg (by simp [hb, hsnap, hf]), show max f (snap + 1) = f by omega]
      refine ⟨h, (List.filter_eq_self.2 fun e he => ?_).symm⟩
      obtain ⟨k, hk⟩ := List.mem_iff_getElem?.1 he
      have := h.get hk
      simp only [decide_eq_true_eq]
      omega
    · obtain ⟨hrun, hfilter⟩ := ih h.2 (by omega)
      rw [List.dropWhile_cons_of_pos (by simp [hb, hsnap]), List.filter_cons_of_neg (by simpa [hb] using hsnap)]
      exact ⟨by rwa [show max (f + 1) (snap + 1) = max f (snap + 1) by omega] at hrun, hfilter⟩

omit [DecidableEq κ] in
/-- The incoming entries of a request are those above the snapshot, from the first
index that can be there. -/
theorem incomingOf_contiguous {prev prevTerm : Nat} (h : Shaped codec prev prevTerm es) :
    RaftLogState.Contiguous (max prev s.snapshotIndex + 1) (s.incomingOf prev es) := by
  have hrun : RaftLogState.Contiguous (max (prev + 1) (s.snapshotIndex + 1)) (s.incomingOf prev es) :=
    (contiguous_incoming h.contiguous (Nat.lt_succ_self prev)).1
  rwa [show max (prev + 1) (s.snapshotIndex + 1) = max prev s.snapshotIndex + 1 by omega] at hrun

omit [DecidableEq κ] in
theorem incomingOf_eq {prev prevTerm : Nat} (h : Shaped codec prev prevTerm es) :
    s.incomingOf prev es = es.filter (s.snapshotIndex < ·.index) :=
  (contiguous_incoming h.contiguous (Nat.lt_succ_self prev)).2

omit [DecidableEq κ] in
/-- A rest of the incoming entries. -/
theorem incoming_of_shaped {prev prevTerm : Nat} (h : Shaped codec prev prevTerm es)
    (hne : r ≠ []) (hr : r <:+ s.incomingOf prev es) : Incoming s r := by
  have hsuf : r <:+ es := hr.trans (List.dropWhile_suffix _)
  refine ⟨hne, ?_, fun e he => ?_, fun e he => h.passes.le_u64Max h.room e (hsuf.subset he)⟩
  · exact List.Pairwise.sublist hsuf.sublist (ordered_of_contiguous h.contiguous)
  · have hmem := hr.subset he
    rw [incomingOf_eq h] at hmem
    simpa using (List.mem_filter.1 hmem).2

theorem appendEntriesFromLeader_change (h : Sound codec s) {prev prevTerm leaderTerm commit : Nat} :
    Change codec s enough (s.appendEntriesFromLeader codec io prev prevTerm leaderTerm commit es).2 := by
  unfold appendEntriesFromLeader
  refine attempt_change fun _ hshape => ?_
  have hshaped := validateAppendEntriesShape_shaped hshape
  simp only
  split
  · exact .same
  rename_i hprev
  split
  · exact .same
  split
  · exact .same
  refine attempt_change fun scan hscan => ?_
  have hreach := h.snapshotIndex_le
  rcases scanIncoming_stop h (incomingOf_contiguous hshaped) (by omega) hscan with
    rfl | ⟨e, rest, hsuf, rfl | ⟨rfl, hend⟩⟩
  · exact .same
  · exact rewriteFrom_change (incoming_of_shaped hshaped (List.cons_ne_nil _ _) hsuf)
  · exact appendOnly_change h (incoming_of_shaped hshaped (List.cons_ne_nil _ _) hsuf) hend

end Leader

/-! ### Snapshots -/

theorem withSnapshot_same {ρ : Type} (h : Sound codec s) {existing metadata : StoredSnapshotMetadata}
    (hlatest : s.latestSnapshot = some existing) (hindex : metadata.lastIncludedIndex = existing.lastIncludedIndex)
    (hterm : metadata.lastIncludedTerm = existing.lastIncludedTerm) {responses : OrdMap String String}
    {result : Except BrokerRaftError ρ} :
    Change codec s enough (s.withSnapshot codec metadata responses fun s' => (result, s')).2 := by
  have hcollect : retainedRequestIdentityFingerprintsAfter codec s.retainedLogEntries metadata.lastIncludedIndex =
      .ok s.retainedRequestFingerprints := by
    have hfps := h.fingerprints
    rw [snapshotIndex, hlatest] at hfps
    rw [hindex]
    exact hfps
  simp only [withSnapshot, snapshotIndex, Option.map_some, Option.getD_some, hcollect, attempt]
  exact .resnapped hlatest hindex hterm

theorem rewriteSnapshot_change (h : Sound codec s) {existing : StoredSnapshotMetadata}
    (hlatest : s.latestSnapshot = some existing) {term : Nat} {sha256 : String} {responses : OrdMap String String} :
    Change codec s enough (s.rewriteSnapshot codec io existing term sha256 responses).2 := by
  unfold rewriteSnapshot
  split
  · exact .same
  split
  · split
    · exact .same
    exact attempt_change fun _ _ => withSnapshot_same h hlatest rfl rfl
  · refine attempt_change fun _ _ => ?_
    split
    · exact .same
    refine attempt_change fun _ _ => attempt_change fun _ _ => ?_
    apply withSnapshot_same h hlatest
    · rfl
    · rfl

/-- The ids behind a snapshot can be collected, if they agree with its responses. -/
theorem fingerprintsAfter_of_client {n : Nat} {responses : OrdMap String String}
    (hok : s.validateSnapshotClientResponsesAgainstRetainedSuffix codec n responses = .ok ()) :
    ∃ m, retainedRequestIdentityFingerprintsAfter codec s.retainedLogEntries n = .ok m := by
  obtain ⟨responses', hadd, -⟩ := map_eq_ok.1 hok
  refine ⟨_, fingerprintsAfter_eq_ok.2 (Prod.ext (add_ok_of_client (fun id f hf => ?_) hadd) rfl)⟩
  simp at hf

theorem withSnapshot_ahead {ρ : Type} {metadata : StoredSnapshotMetadata} {responses : OrdMap String String}
    {m : OrdMap String RetainedRequestIdentityFingerprint} (hahead : s.snapshotIndex ≤ metadata.lastIncludedIndex)
    (hterm : ∀ t, s.termAtIndex metadata.lastIncludedIndex = some t → t = metadata.lastIncludedTerm)
    (hend : ∀ e ∈ s.retainedLogEntries.getLast?, metadata.lastIncludedIndex ≤ e.index)
    (hm : retainedRequestIdentityFingerprintsAfter codec s.retainedLogEntries metadata.lastIncludedIndex = .ok m)
    {result : Except BrokerRaftError ρ} :
    Change codec s enough (s.withSnapshot codec metadata responses fun s' =>
      (result, if s'.lastIndex ≤ metadata.lastIncludedIndex then
        { s' with lastIndex := metadata.lastIncludedIndex, lastTerm := metadata.lastIncludedTerm } else s')).2 := by
  have hchange : Change codec s enough _ := .snapshotted responses hahead hterm hend hm
  simp only [withSnapshot, snapshotIndex, Option.map_some, Option.getD_some, hm, attempt]
  by_cases hle : s.lastIndex ≤ metadata.lastIncludedIndex
  · simpa only [if_pos hle] using hchange
  · simpa only [if_neg hle] using hchange

theorem writeSnapshot_change (h : Sound codec s) {index term : Nat} {payload : π} :
    Change codec s enough (s.writeSnapshot codec io index term payload).2 := by
  unfold writeSnapshot
  refine attempt_change fun responses _ => ?_
  simp only
  split
  · rename_i existing hfilter
    split
    · exact .same
    · exact rewriteSnapshot_change h (Option.filter_eq_some_iff.1 hfilter).1
  rename_i hfilter
  split
  · exact .same
  rename_i hnone
  split
  · exact .same
  rename_i hfuture
  refine attempt_change fun _ hclient => attempt_change fun _ _ => ?_
  obtain ⟨m, hm⟩ := fingerprintsAfter_of_client hclient
  refine withSnapshot_ahead ?_ (fun t ht => ?_) (fun e he => ?_) hm
  · simp only [Option.filter_eq_none_iff, decide_eq_true_eq, Nat.not_le] at hfilter
    rw [snapshotIndex]
    cases hs : s.latestSnapshot with
    | none => exact Nat.zero_le _
    | some m => exact Nat.le_of_lt (hfilter m hs)
  · by_contra hne
    rw [ht, Option.filter_some] at hnone
    simp [hne] at hnone
  · have hne : s.retainedLogEntries ≠ [] := List.ne_nil_of_mem (List.mem_of_getLast? he)
    rw [(h.lastIndex_of_getLast he).1] at hfuture
    simpa [hne] using hfuture

theorem Sound.repairBytes (h : Sound codec s) : s.repairRetainedLogEntryByteCache codec = s := by
  unfold repairRetainedLogEntryByteCache
  rw [← h.bytes]

/-- The lengths of the lines of a suffix. -/
theorem Sound.bytesSuffix (h : Sound codec s) {k : Nat} {sizes : List Nat}
    (hok : retainedLogEntryBytesSuffix s.retainedLogEntries s.retainedLogEntryBytes k = .ok sizes) :
    sizes = serializedLogEntryLens codec (s.retainedLogEntries.drop k) := by
  simp only [retainedLogEntryBytesSuffix, check_bind_eq_ok] at hok
  obtain ⟨-, hok⟩ := hok
  split at hok
  · cases hok
  · cases hok
    rw [h.bytes, serializedLogEntryLens, serializedLogEntryLens, List.map_drop]

theorem retainedBehind_sizes (h : Sound codec s) {index term : Nat} {retained : List (LogEntry κ) × List Nat}
    (hok : s.retainedBehind index term = .ok retained) : retained.2 = serializedLogEntryLens codec retained.1 := by
  unfold retainedBehind at hok
  split at hok
  · obtain ⟨sizes, hsizes, rfl⟩ := map_eq_ok.1 hok
    exact h.bytesSuffix hsizes
  · cases hok
    rfl

/-- Caches that are built anew behind a snapshot can be. -/
theorem replaceRetainedLogState_ok {sizes : List Nat} (hsizes : sizes = serializedLogEntryLens codec l)
    {fingerprints : OrdMap String String} (hclient : validateClientRequestIdentityEntries codec fingerprints l = .ok ())
    (hbehind : behind s.snapshotIndex l = l) : ∃ s', s.replaceRetainedLogState codec l sizes = .ok s' := by
  obtain ⟨fingerprints', hadd, -⟩ := map_eq_ok.1 hclient
  have hfps : ∃ m, retainedRequestIdentityFingerprintsAfter codec l s.snapshotIndex = .ok m := by
    refine ⟨_, fingerprintsAfter_eq_ok.2 (Prod.ext ?_ rfl)⟩
    rw [hbehind]
    exact add_ok_of_client (fun id f hf => by simp at hf) hadd
  obtain ⟨m, hm⟩ := hfps
  have hlen : validateRetainedLogEntryBytesLen l.length sizes.length = .ok () := by
    simp [validateRetainedLogEntryBytesLen, hsizes, serializedLogEntryLens]
  exact ⟨_, by rw [replaceRetainedLogState, hlen, hm]; rfl⟩

theorem installSnapshotFromLeader_change (h : Sound codec s) {index term : Nat} {sha256 : Option String} {payload : π} :
    Change codec s enough (s.installSnapshotFromLeader codec io index term sha256 payload).2 := by
  unfold installSnapshotFromLeader
  refine attempt_change fun verified _ => ?_
  refine attempt_change fun fingerprints _ => ?_
  split
  · rename_i existing hfilter
    split
    · refine attempt_change fun _ _ => ?_
      refine attempt_change fun _ _ => ?_
      exact withSnapshot_same h (Option.filter_eq_some_iff.1 hfilter).1 rfl rfl
    · exact .same
  simp only [h.repairBytes]
  refine attempt_change fun retained hretained => ?_
  split
  · exact .same
  rename_i hclient
  refine attempt_change fun _ hvalid => ?_
  refine attempt_change fun _ _ => ?_
  have hsizes := retainedBehind_sizes h hretained
  have hbehind : behind index retained.1 = retained.1 := by
    refine behind_self fun e he => ?_
    unfold retainedBehind at hretained
    split at hretained
    · obtain ⟨sizes, -, rfl⟩ := map_eq_ok.1 hretained
      exact h.ordered.lt_of_mem_behind he
    · cases hretained
      cases he
  obtain ⟨s', hs'⟩ := replaceRetainedLogState_ok (s := { s with
    latestSnapshot := some ⟨⟨index, term⟩, some verified⟩, snapshotClientResponseFingerprints := fingerprints })
    hsizes hclient hbehind
  rw [hs']
  exact .rebuilt hvalid (hsizes ▸ hs')

theorem compactThrough_change (h : Sound codec s) {index : Nat} :
    Change codec s enough (s.compactThrough codec io index).2 := by
  unfold compactThrough
  split
  · exact .same
  split
  · exact .same
  simp only [h.repairBytes]
  refine attempt_change fun _ _ => ?_
  split
  · refine attempt_change fun _ _ => ?_
    exact attempt_change fun _ _ => .same
  · refine attempt_change fun sizes hsizes => ?_
    refine attempt_change fun _ _ => ?_
    refine attempt_change fun _ hvalid => ?_
    refine attempt_change fun _ _ => ?_
    refine attempt_change fun s' hs' => ?_
    exact .rebuilt hvalid (h.bytesSuffix hsizes ▸ hs')

/-! ## Runs -/

/-- An operation on the store, with what the files answered. -/
inductive StoreOp (κ π : Type) where
  | appendBatch (term : Nat) (commands : List κ)
  | appendEntriesFromLeader (prevLogIndex prevLogTerm leaderTerm localCommitIndex : Nat) (entries : List (LogEntry κ))
  | writeSnapshot (lastIncludedIndex lastIncludedTerm : Nat) (payload : π)
  | installSnapshotFromLeader (lastIncludedIndex lastIncludedTerm : Nat) (payloadSha256 : Option String) (payload : π)
  | compactThrough (throughIndex : Nat)

variable [DecidableEq κ]

/-- The store behind an operation, whether it succeeded or not. -/
def StoreOp.run (codec : StoreCodec κ π) (io : StoreIo κ π) (s : RaftLogStore κ) :
    StoreOp κ π → RaftLogStore κ
  | .appendBatch term commands => (s.appendBatch codec io term commands).2
  | .appendEntriesFromLeader prev prevTerm leaderTerm commit entries =>
    (s.appendEntriesFromLeader codec io prev prevTerm leaderTerm commit entries).2
  | .writeSnapshot index term payload => (s.writeSnapshot codec io index term payload).2
  | .installSnapshotFromLeader index term sha256 payload =>
    (s.installSnapshotFromLeader codec io index term sha256 payload).2
  | .compactThrough index => (s.compactThrough codec io index).2

/-- The store behind a sequence of operations. -/
def runOps (codec : StoreCodec κ π) (s : RaftLogStore κ) (ops : List (StoreIo κ π × StoreOp κ π)) :
    RaftLogStore κ :=
  ops.foldl (fun s op => op.2.run codec op.1 s) s

omit [DecidableEq κ] in
/-- There is an index behind the snapshot for a local append. -/
def StoreOp.HasRoom (s : RaftLogStore κ) : StoreOp κ π → Prop
  | .appendBatch _ commands => commands = [] ∨ s.snapshotIndex < u64Max
  | _ => True

omit [DecidableEq κ] in
/-- There are indexes for all the entries of a local append. -/
def StoreOp.HasNumbers (s : RaftLogStore κ) : StoreOp κ π → Prop
  | .appendBatch _ commands => s.lastIndex + commands.length ≤ u64Max
  | _ => True

/-- Every local append of the sequence has an index behind the snapshot. -/
def HaveRoom (codec : StoreCodec κ π) : RaftLogStore κ → List (StoreIo κ π × StoreOp κ π) → Prop
  | _, [] => True
  | s, (io, op) :: ops => op.HasRoom s ∧ HaveRoom codec (op.run codec io s) ops

/-- What one operation does. -/
theorem StoreOp.run_change (h : Sound codec s) {op : StoreOp κ π} (hroom : op.HasRoom s) :
    Change codec s (op.HasNumbers s) (op.run codec io s) := by
  cases op with
  | appendBatch term commands => exact appendBatch_change h hroom
  | appendEntriesFromLeader prev prevTerm leaderTerm commit entries => exact appendEntriesFromLeader_change h
  | writeSnapshot index term payload => exact writeSnapshot_change h
  | installSnapshotFromLeader index term sha256 payload => exact installSnapshotFromLeader_change h
  | compactThrough index => exact compactThrough_change h

theorem runOps_sound (h : Sound codec s) {ops : List (StoreIo κ π × StoreOp κ π)}
    (hroom : HaveRoom codec s ops) : Sound codec (runOps codec s ops) := by
  induction ops generalizing s with
  | nil => exact h
  | cons op ops ih => exact ih ((StoreOp.run_change h hroom.1).sound h) hroom.2

/-- Every local append of the sequence has indexes for all its entries. -/
def HaveNumbers (codec : StoreCodec κ π) : RaftLogStore κ → List (StoreIo κ π × StoreOp κ π) → Prop
  | _, [] => True
  | s, (io, op) :: ops => op.HasNumbers s ∧ HaveNumbers codec (op.run codec io s) ops

omit [DecidableEq κ] in
theorem StoreOp.HasNumbers.hasRoom {op : StoreOp κ π} (h : Sound codec s) (hn : op.HasNumbers s) : op.HasRoom s := by
  cases op with
  | appendBatch term commands =>
    cases commands with
    | nil => exact .inl rfl
    | cons command commands =>
      have hreach := h.snapshotIndex_le
      have hn : s.lastIndex + (commands.length + 1) ≤ u64Max := hn
      exact .inr (by omega)
  | _ => trivial

/-- As long as the numbers last, no operation leaves a gap in the log. -/
theorem runOps_whole (h : Whole codec s) {ops : List (StoreIo κ π × StoreOp κ π)} (hn : HaveNumbers codec s ops) :
    Whole codec (runOps codec s ops) := by
  induction ops generalizing s with
  | nil => exact h
  | cons op ops ih => exact ih ((StoreOp.run_change h.toSound (hn.1.hasRoom h.toSound)).whole h hn.1) hn.2

/-- **The caches are exact.** From any store that was opened, behind any sequence of
operations and whatever the files answered, every cache is what one would compute
from the retained entries and the snapshot, as long as no command is appended
behind a snapshot that stands at the last `u64`. -/
theorem runOps_exact {trailing commitIndex : Nat} (hopen : openWith codec io trailing commitIndex = .ok s)
    {ops : List (StoreIo κ π × StoreOp κ π)} (hroom : HaveRoom codec s ops) : Exact codec (runOps codec s ops) :=
  (runOps_sound (openWith_whole hopen).toSound hroom).toExact

/-- Commands that are their own identity. -/
def Sample.identities : StoreCodec RequestIdentity Unit where
  validateRaftCommand _ := .ok ()
  requestIdentity := some
  serializedLogEntryLen entry := entry.command.command.requestId.length
  clientResponsesFromSnapshotPayload _ := .ok []
  snapshotPayloadSha256 _ := ""

/-- A command, a snapshot behind it, another command and the compaction of the first. -/
def Sample.ordinary : List (StoreIo RequestIdentity Unit × StoreOp RequestIdentity Unit) :=
  [({}, .appendBatch 1 [⟨"a", "f"⟩]), ({}, .writeSnapshot 1 1 ()), ({}, .appendBatch 1 [⟨"b", "g"⟩]),
    ({}, .compactThrough 1)]

theorem runOps_exact_ordinary : openWith Sample.identities {} 0 0 = .ok {} ∧
    Exact Sample.identities (runOps Sample.identities {} Sample.ordinary) := by
  have hopen : openWith Sample.identities {} 0 0 = .ok {} := rfl
  have hroom : HaveRoom Sample.identities {} Sample.ordinary :=
    ⟨.inr (by decide +kernel), trivial, .inr (by decide +kernel), trivial, trivial⟩
  exact ⟨hopen, runOps_exact hopen hroom⟩

/-- A snapshot at the last `u64`, and a command behind it. -/
def Sample.overrun : List (StoreIo RequestIdentity Unit × StoreOp RequestIdentity Unit) :=
  [({}, .writeSnapshot u64Max 1 ()), ({}, .appendBatch 1 [⟨"a", "f"⟩])]

/-- The command gets the snapshot's own index, so its id is not one of those behind
the snapshot, but the map has it. -/
theorem runOps_overrun : openWith Sample.identities {} 0 0 = .ok {} ∧
    ¬Exact Sample.identities (runOps Sample.identities {} Sample.overrun) := by
  refine ⟨rfl, fun h => ?_⟩
  have hfps := congrArg (fun r => r.toOption.bind fun m => m["a"]?) h.fingerprints
  revert hfps
  decide +kernel

end RaftLogStore

end LiveMutex.Raft
