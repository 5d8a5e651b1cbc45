/-
No operation of the log store leaves a gap in the log.

`Valid` says more, and needs what Raft guarantees about terms; that the retained
entries are numbered without a gap and reach up to the snapshot holds whatever the
store is asked to do.
-/
import LiveMutex.Raft.Repair
import Mathlib.Data.List.TakeWhile

namespace LiveMutex.Raft

namespace RaftLogState

variable {α : Type} {s s' : RaftLogState α} {e : RaftLogEntry α} {l es : List (RaftLogEntry α)} {f k i : Nat}

/-! ## Runs of indexes -/

theorem Contiguous.append {a : Nat} {m : List (RaftLogEntry α)} (hl : Contiguous a l)
    (hm : Contiguous (a + l.length) m) : Contiguous a (l ++ m) := by
  induction l generalizing a with
  | nil => simpa using hm
  | cons e l ih =>
    refine ⟨hl.1, ih hl.2 ?_⟩
    rw [List.length_cons] at hm
    rw [show a + 1 + l.length = a + (l.length + 1) by omega]
    exact hm

theorem Contiguous.take {a : Nat} (hl : Contiguous a l) (k : Nat) : Contiguous a (l.take k) := by
  induction l generalizing a k with
  | nil => simp [Contiguous]
  | cons e l ih =>
    cases k with
    | zero => simp [Contiguous]
    | succ k => exact ⟨hl.1, ih hl.2 k⟩

theorem numbered_contiguous {term : Nat} : ∀ {i : Nat} {commands : List α}, Contiguous i (numbered term i commands)
  | _, [] => trivial
  | _, _ :: _ => ⟨rfl, numbered_contiguous⟩

/-- A request that passes the shape check has its entries numbered behind the
previous one, each of term at least 1 and at most the leader's. -/
theorem validateEntries_ok {prev term : Nat} : ∀ {expected prevTerm : Nat} {es : List (RaftLogEntry α)},
    validateEntries prev term expected prevTerm es = .ok () → Contiguous expected es
  | _, _, [], _ => trivial
  | expected, prevTerm, e :: es, h => by
    simp only [validateEntries] at h
    split at h
    · cases h
    · split at h
      · cases h
      · rename_i hidx
        have hidx : e.index = expected := by simpa using hidx
        split at h
        · cases h
        · split at h
          · cases h
          · split at h
            · cases h
            · exact ⟨hidx, hidx ▸ validateEntries_ok h⟩

theorem validateAppendEntriesShape_ok {prev prevTerm term : Nat}
    (h : validateAppendEntriesShape prev prevTerm term es = .ok ()) : Contiguous (prev + 1) es := by
  simp only [validateAppendEntriesShape] at h
  split at h
  · cases h
  · split at h
    · cases h
    · split at h
      · cases h
      · split at h
        · cases h
        · exact validateEntries_ok h

theorem entriesRange_mem {first last : Nat} (hok : s.entriesRange first last = .ok es) (he : e ∈ es) :
    e ∈ s.retainedLogEntries ∧ e.index ≤ last := by
  unfold entriesRange at hok
  by_cases hle : last < first
  · rw [if_pos hle] at hok
    cases hok
    cases he
  · rw [if_neg hle] at hok
    simp only at hok
    generalize (if max first 1 ≤ s.snapshotIndex then s.snapshotIndex else max first 1 - 1) = covered at hok
    split at hok
    · cases hok
    · cases hok
      rw [entriesRangeCached, if_neg hle, retainedEntryUpperBound,
        ← List.prefix_iff_eq_take.1 (List.takeWhile_prefix _)] at he
      have he := List.mem_of_mem_drop he
      exact ⟨(List.takeWhile_prefix _).subset he, by simpa using List.mem_takeWhile_imp he⟩

theorem Contiguous.drop (h : Contiguous f l) : Contiguous (f + k) (l.drop k) := by
  induction l generalizing f k with
  | nil => simp [Contiguous]
  | cons e l ih =>
    cases k with
    | zero => exact h
    | succ k =>
      rw [show f + (k + 1) = f + 1 + k by omega]
      exact ih h.2

theorem Contiguous.last (h : Contiguous f l) (he : e ∈ l.getLast?) : e.index + 1 = f + l.length := by
  rw [Option.mem_def, List.getLast?_eq_getElem?] at he
  have hlt := (List.getElem?_eq_some_iff.1 he).1
  have hindex := h.get he
  omega

/-- A run that goes on where another ends. -/
theorem Contiguous.join (hl : Contiguous f l) (hes : Contiguous k es)
    (hend : ∀ e ∈ l.getLast?, ∀ e' ∈ es.head?, e'.index = e.index + 1) : ∃ f, Contiguous f (l ++ es) := by
  cases hlast : l.getLast? with
  | none => exact ⟨k, by rw [List.getLast?_eq_none_iff.1 hlast]; exact hes⟩
  | some e =>
    cases es with
    | nil => exact ⟨f, by simpa using hl⟩
    | cons e' es =>
      have hnext := hend e hlast e' rfl
      have hfirst : e'.index = k := hes.1
      have hlen := hl.last hlast
      exact ⟨f, hl.append (by rw [← hlen, ← hnext, hfirst]; exact hes)⟩

/-- The retained entries are numbered without a gap, and go up to the snapshot. -/
structure Gapless (s : RaftLogState α) : Prop where
  contiguous : ∃ f, Contiguous f s.retainedLogEntries
  reaches : s.snapshotIndex ≤ s.lastIndex

theorem reaches_iff : s.snapshotIndex ≤ s.lastIndex ↔ ∀ e ∈ s.retainedLogEntries.getLast?, s.snapshotIndex ≤ e.index := by
  cases hlast : s.retainedLogEntries.getLast? with
  | none => simp [Valid.lastIndex_of_nil (List.getLast?_eq_none_iff.1 hlast)]
  | some e => simp [Valid.lastIndex_of_getLast hlast]

theorem Contiguous.index_le (h : Contiguous f s.retainedLogEntries) (he : e ∈ s.retainedLogEntries) :
    e.index ≤ s.lastIndex := by
  obtain ⟨k, hk⟩ := List.mem_iff_getElem?.1 he
  have hlt := (List.getElem?_eq_some_iff.1 hk).1
  cases hlast : s.retainedLogEntries.getLast? with
  | none =>
    rw [List.getLast?_eq_none_iff.1 hlast] at he
    cases he
  | some b =>
    rw [Valid.lastIndex_of_getLast hlast]
    have hb := h.last hlast
    have hindex := h.get hk
    omega

/-! ## Appends -/

/-- Entries behind the end of the log. -/
theorem Gapless.extend (h : s.Gapless) (hes : Contiguous (s.lastIndex + 1) es) :
    ({ s with retainedLogEntries := s.retainedLogEntries ++ es } : RaftLogState α).Gapless := by
  obtain ⟨f, hf⟩ := h.contiguous
  refine ⟨hf.join hes ?_, ?_⟩
  · intro e he e' he'
    cases es with
    | nil => cases he'
    | cons a es =>
      cases he'
      rw [hes.1, Valid.lastIndex_of_getLast he]
  · rw [reaches_iff]
    intro e he
    cases es with
    | nil => exact reaches_iff.1 h.reaches e (by simpa using he)
    | cons a es =>
      rw [List.getLast?_append_of_ne_nil _ (List.cons_ne_nil _ _)] at he
      have hlast := hes.last he
      have hreach := h.reaches
      have hsame : ({ s with retainedLogEntries := s.retainedLogEntries ++ a :: es } : RaftLogState α).snapshotIndex =
          s.snapshotIndex := rfl
      rw [hsame]
      simp only [List.length_cons] at hlast
      omega

theorem Gapless.appendBatch (h : s.Gapless) {term : Nat} {commands : List α}
    (hok : s.appendBatch term commands = .ok s') : s'.Gapless ∧ s'.latestSnapshot = s.latestSnapshot := by
  unfold RaftLogState.appendBatch at hok
  split at hok
  · cases hok
    exact ⟨h, rfl⟩
  · split at hok
    · cases hok
    · split at hok
      · cases hok
      · cases hok
        exact ⟨h.extend numbered_contiguous, rfl⟩

/-- The entries of a request behind an index. -/
theorem Contiguous.dropWhile {a b : Nat} (h : Contiguous f l) (hb : b < f) :
    ∃ g, g ≤ max f (a + 1) ∧ Contiguous g (l.dropWhile fun e => !(a < e.index && b < e.index)) ∧
      ∀ e ∈ l.dropWhile fun e => !(a < e.index && b < e.index), a < e.index := by
  induction l generalizing f with
  | nil => exact ⟨f, Nat.le_max_left _ _, trivial, fun e he => by cases he⟩
  | cons e l ih =>
    have hindex : e.index = f := h.1
    by_cases ha : a < f
    · refine ⟨f, Nat.le_max_left _ _, ?_⟩
      rw [List.dropWhile_cons_of_neg (by simp [hindex, ha, hb])]
      refine ⟨h, fun e' he' => ?_⟩
      obtain ⟨k, hk⟩ := List.mem_iff_getElem?.1 he'
      have := h.get hk
      omega
    · obtain ⟨g, hg, hrest⟩ := ih h.2 (by omega)
      refine ⟨g, by omega, ?_⟩
      rw [List.dropWhile_cons_of_pos (by simp [hindex, ha])]
      exact hrest

variable [DecidableEq α]

/-- What the scan finds to be missing goes on where the log ends. -/
theorem Contiguous.scanIncoming_append {rest : List (RaftLogEntry α)} (h : Contiguous f s.retainedLogEntries) :
    ∀ {g : Nat} {es : List (RaftLogEntry α)}, Contiguous g es → g ≤ s.lastIndex + 1 →
      s.scanIncoming es = .ok (.append rest) → Contiguous (s.lastIndex + 1) rest
  | g, [], _, _, hs => by cases hs
  | g, e :: es, hes, hg, hs => by
    have hindex : e.index = g := hes.1
    simp only [scanIncoming] at hs
    split at hs
    · rename_i a hget
      obtain ⟨hmem, ha⟩ := h.retainedEntryAt_eq_some.1 hget
      have hle := h.index_le hmem
      split at hs
      · split at hs
        · exact h.scanIncoming_append hes.2 (by omega) hs
        · cases hs
      · cases hs
    · simp only [Except.ok.injEq] at hs
      split at hs
      · cases hs
      · cases hs
        have : g = s.lastIndex + 1 := by omega
        exact this ▸ hes

omit [DecidableEq α] in
theorem validatePersistedLogEntries_ok : ∀ {previous : Option (RaftLogEntry α)} {es : List (RaftLogEntry α)},
    validatePersistedLogEntries previous es = .ok () →
      ∃ f, Contiguous f es ∧ ∀ prev ∈ previous, es ≠ [] → f = prev.index + 1
  | _, [], _ => ⟨0, trivial, fun _ _ hne => absurd rfl hne⟩
  | previous, e :: es, h => by
    simp only [validatePersistedLogEntries] at h
    split at h
    · cases h
    · split at h
      · cases h
      · have hrest : validatePersistedLogEntries (some e) es = .ok () → Contiguous e.index (e :: es) := by
          intro h
          obtain ⟨g, hg, hnext⟩ := validatePersistedLogEntries_ok h
          refine ⟨rfl, ?_⟩
          cases es with
          | nil => trivial
          | cons a es => exact hnext e rfl (List.cons_ne_nil _ _) ▸ hg
        split at h
        · exact ⟨e.index, hrest h, fun _ hp => by cases hp⟩
        · split at h
          · cases h
          · rename_i prev hnext
            split at h
            · cases h
            · refine ⟨e.index, hrest h, fun _ hp _ => ?_⟩
              cases hp
              simpa using hnext

omit [DecidableEq α] in
/-- A suffix that is put behind what is kept of the log. -/
theorem Gapless.repair {kept rest : List (RaftLogEntry α)} (hkept : ∃ f, Contiguous f kept)
    (hok : validateRepairedLogSuffix kept rest s.latestSnapshot = .ok ()) (hrest : ∀ e ∈ rest.getLast?, s.snapshotIndex ≤ e.index)
    (hne : rest ≠ []) : ({ s with retainedLogEntries := kept ++ rest } : RaftLogState α).Gapless := by
  simp only [validateRepairedLogSuffix, bind, Except.bind] at hok
  split at hok
  · cases hok
  rename_i hvalid
  split at hok
  · cases hok
  obtain ⟨f, hf⟩ := hkept
  obtain ⟨g, hg, _⟩ := validatePersistedLogEntries_ok hvalid
  refine ⟨hf.join hg ?_, reaches_iff.2 ?_⟩
  · intro e he e' he'
    simp only [Option.mem_def.1 he, Option.mem_def.1 he'] at hok
    split at hok
    · cases hok
    · rename_i hnext
      simpa using hnext
  · intro e he
    rw [List.getLast?_append_of_ne_nil _ hne] at he
    exact hrest e he

/-- The scan stops inside what it was given. -/
theorem scanIncoming_suffix {scan : IncomingScan α} : ∀ {es : List (RaftLogEntry α)}, s.scanIncoming es = .ok scan →
    scan = .present ∨ ∃ rest, (scan = .rewrite rest ∨ scan = .append rest) ∧ rest ≠ [] ∧ rest <:+ es
  | [], hs => by
    cases hs
    exact .inl rfl
  | e :: es, hs => by
    simp only [scanIncoming] at hs
    split at hs
    · split at hs
      · split at hs
        · refine (scanIncoming_suffix hs).imp_right ?_
          intro hrest
          obtain ⟨rest, hscan, hne, hsuf⟩ := hrest
          exact ⟨rest, hscan, hne, hsuf.trans (List.suffix_cons _ _)⟩
        · cases hs
      · cases hs
        exact .inr ⟨_, .inl rfl, List.cons_ne_nil _ _, List.suffix_rfl⟩
    · cases hs
      refine .inr ⟨_, ?_, List.cons_ne_nil _ _, List.suffix_rfl⟩
      split
      · exact .inl rfl
      · exact .inr rfl

theorem Gapless.appendEntriesFromLeader (h : s.Gapless) {prev prevTerm term commit : Nat} {report : RaftAppendReport}
    (hok : s.appendEntriesFromLeader prev prevTerm term commit es = .ok (report, s')) :
    s'.Gapless ∧ s'.latestSnapshot = s.latestSnapshot := by
  obtain ⟨f, hf⟩ := h.contiguous
  simp only [RaftLogState.appendEntriesFromLeader, bind, Except.bind] at hok
  split at hok
  · cases hok
  rename_i hshape
  have hc := validateAppendEntriesShape_ok hshape
  split at hok
  · cases hok
    exact ⟨h, rfl⟩
  rename_i hconf
  have hprev : prev ≤ s.lastIndex := by
    by_contra hlt
    simp [prevConflict_behind (Nat.lt_of_not_le hlt)] at hconf
  obtain ⟨g, hg, hin, hbehind⟩ := hc.dropWhile (a := s.snapshotIndex) (Nat.lt_succ_self prev)
  have hreach := h.reaches
  generalize hincoming : es.dropWhile (fun e => !(s.snapshotIndex < e.index && prev < e.index)) = incoming at hok hin hbehind
  split at hok
  · cases hok
  rename_i scan hscan
  rcases scanIncoming_suffix hscan with rfl | ⟨rest, rfl | rfl, hne, hsuf⟩
  · cases hok
    exact ⟨h, rfl⟩
  · simp only at hok
    split at hok
    · cases hok
    split at hok
    · cases hok
    rename_i hvalid
    cases hok
    refine ⟨Gapless.repair ⟨f, hf.take _⟩ hvalid ?_ hne, rfl⟩
    intro e he
    exact Nat.le_of_lt (hbehind e (hsuf.subset (List.mem_of_getLast? he)))
  · simp only at hok
    split at hok
    · cases hok
    cases hok
    exact ⟨h.extend (hf.scanIncoming_append hin (by omega) hscan), rfl⟩

omit [DecidableEq α]

/-! ## Snapshots and compaction -/

theorem validateSnapshotLogBoundary_ok {metadata : RaftSnapshotMetadata}
    (hok : validateSnapshotLogBoundary es (some metadata) = .ok ()) :
    ∀ e ∈ es.getLast?, metadata.lastIncludedIndex ≤ e.index := by
  intro e he
  have hne : es ≠ [] := List.ne_nil_of_mem (List.mem_of_getLast? he)
  simp only [validateSnapshotLogBoundary, List.head?_eq_some_head hne, Option.mem_def.1 he] at hok
  split at hok
  · cases hok
  · omega

/-- The store has a snapshot that reaches as far, or is switched to the new one. -/
theorem Gapless.installSnapshotFromLeader (h : s.Gapless) {index term : Nat} {metadata : RaftSnapshotMetadata}
    (hok : s.installSnapshotFromLeader index term = .ok (metadata, s')) :
    s'.Gapless ∧ (s' = s ∧ metadata ∈ s.latestSnapshot ∧ index ≤ metadata.lastIncludedIndex ∨
      (∀ m ∈ s.latestSnapshot, m.lastIncludedIndex < index) ∧ metadata = ⟨index, term⟩ ∧
        s'.latestSnapshot = some metadata) := by
  unfold RaftLogState.installSnapshotFromLeader at hok
  split at hok
  · rename_i existing hfilter
    obtain ⟨hsome, hle⟩ := Option.filter_eq_some_iff.1 hfilter
    split at hok
    · cases hok
    · cases hok
      exact ⟨h, .inl ⟨rfl, hsome, by simpa using hle⟩⟩
  · rename_i hfilter
    simp only [bind, Except.bind] at hok
    split at hok
    · cases hok
    rename_i hvalid
    split at hok
    · cases hok
    rename_i hboundary
    cases hok
    obtain ⟨g, hg, _⟩ := validatePersistedLogEntries_ok hvalid
    refine ⟨⟨⟨g, hg⟩, reaches_iff.2 fun e he => ?_⟩, .inr ⟨fun m hm => ?_, rfl, rfl⟩⟩
    · exact validateSnapshotLogBoundary_ok hboundary e he
    · simp only [Option.filter_eq_none_iff, decide_eq_true_eq, Nat.not_le] at hfilter
      exact hfilter m hm

theorem Gapless.writeSnapshot (h : s.Gapless) {index term : Nat} (hok : s.writeSnapshot index term = .ok s') :
    s'.Gapless ∧ (s' = s ∧ (∃ m ∈ s.latestSnapshot, m.lastIncludedIndex = index) ∨
      (∀ m ∈ s.latestSnapshot, m.lastIncludedIndex < index) ∧ s'.latestSnapshot = some ⟨index, term⟩) := by
  unfold RaftLogState.writeSnapshot at hok
  split at hok
  · rename_i existing hfilter
    obtain ⟨hsome, hle⟩ := Option.filter_eq_some_iff.1 hfilter
    have hle : index ≤ existing.lastIncludedIndex := by simpa using hle
    split at hok
    · cases hok
    split at hok
    · cases hok
    cases hok
    exact ⟨h, .inl ⟨rfl, existing, hsome, by omega⟩⟩
  · rename_i hfilter
    split at hok
    · cases hok
    split at hok
    · cases hok
    rename_i hfuture
    cases hok
    refine ⟨⟨h.contiguous, reaches_iff.2 fun e he => ?_⟩, .inr ⟨fun m hm => ?_, rfl⟩⟩
    · have hne : s.retainedLogEntries ≠ [] := List.ne_nil_of_mem (List.mem_of_getLast? he)
      have hlast : s.lastIndex = e.index := Valid.lastIndex_of_getLast he
      show index ≤ e.index
      simpa [hne, hlast] using hfuture
    · simp only [Option.filter_eq_none_iff, decide_eq_true_eq, Nat.not_le] at hfilter
      exact hfilter m hm

theorem Gapless.compactThrough (h : s.Gapless) {index : Nat} (hok : s.compactThrough index = .ok s') :
    s'.Gapless ∧ s'.latestSnapshot = s.latestSnapshot := by
  obtain ⟨f, hf⟩ := h.contiguous
  unfold RaftLogState.compactThrough at hok
  split at hok
  · cases hok
  · split at hok
    · cases hok
    · cases hok
      refine ⟨⟨⟨_, hf.drop⟩, reaches_iff.2 fun e he => ?_⟩, rfl⟩
      refine reaches_iff.1 h.reaches e ?_
      rw [List.getLast?_drop] at he
      split at he
      · cases he
      · exact he

/-! ## The entries to apply -/

/-- What is read behind the snapshot starts with the entry that was asked for and has
no gap. -/
theorem Gapless.entriesRange (h : s.Gapless) {first last : Nat} (hfirst : s.snapshotIndex < first) (hle : first ≤ last)
    (hok : s.entriesRange first last = .ok es) : Contiguous first es ∧ es ≠ [] := by
  obtain ⟨f, hf⟩ := h.contiguous
  unfold RaftLogState.entriesRange at hok
  simp only [entriesRangeCached, show ¬last < first by omega, Nat.max_eq_left (show 1 ≤ first by omega),
    show ¬first ≤ s.snapshotIndex by omega, if_false] at hok
  split at hok
  · cases hok
  rename_i hcovered
  cases hok
  have hrun := (hf.take (retainedEntryUpperBound s.retainedLogEntries last)).drop
    (k := retainedEntryLowerBound s.retainedLogEntries first)
  generalize hes : (s.retainedLogEntries.take (retainedEntryUpperBound s.retainedLogEntries last)).drop
    (retainedEntryLowerBound s.retainedLogEntries first) = es at hcovered hrun ⊢
  cases es with
  | nil =>
    simp only [coveredThrough] at hcovered
    omega
  | cons e es =>
    have hindex : e.index = f + retainedEntryLowerBound s.retainedLogEntries first := hrun.1
    have hpos : retainedEntryLowerBound s.retainedLogEntries first < s.retainedLogEntries.length := by
      have hlen := congrArg List.length hes
      simp only [List.length_drop, List.length_take, List.length_cons] at hlen
      omega
    -- the log starts behind `first`, which leaves a gap, or `first` is in it
    have hge : first ≤ e.index := by
      by_cases hbefore : first ≤ f
      · omega
      · rw [hf.lowerBound (by omega)] at hindex hpos
        omega
    have hfirst : e.index = first := by
      simp only [coveredThrough] at hcovered
      split at hcovered
      · omega
      · split at hcovered
        · omega
        · omega
    exact ⟨by rw [← hfirst, hindex]; exact hrun, List.cons_ne_nil _ _⟩

end RaftLogState

end LiveMutex.Raft
