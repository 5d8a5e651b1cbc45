/-
What a follower's log is behind an AppendEntries request.

The entries at or below the snapshot are skipped without a look. The others are
compared one by one with the local log; where the two first differ, the log is
continued if it ends there and cut and replaced if it has another entry. An entry
that is committed, by the node's memory or by its disk, is never cut.
-/
import LiveMutex.Raft.StoreExact

namespace LiveMutex.Raft

namespace RaftLogStore

open RaftLogState (Contiguous)

variable {κ π : Type} {codec : StoreCodec κ π} {io : StoreIo κ π} {s s' : RaftLogStore κ}
  {l r es entries : List (LogEntry κ)} {e a : LogEntry κ} {prev prevTerm leaderTerm commit d : Nat}

/-! ## Looking an index up -/

/-- An index names one entry. -/
theorem Whole.unique (h : Whole codec s) (ha : a ∈ s.retainedLogEntries) (he : e ∈ s.retainedLogEntries)
    (hindex : a.index = e.index) : a = e := by
  obtain ⟨f, hf⟩ := h.contiguous
  have := hf.retainedEntryAt_eq_some.2 ⟨ha, hindex⟩
  have := hf.retainedEntryAt_eq_some.2 ⟨he, rfl⟩
  simp_all

theorem nodup_of_contiguous {f : Nat} (h : Contiguous f l) : (l.map (·.index)).Nodup :=
  List.pairwise_map.2 ((increasing_of_contiguous h).imp Nat.ne_of_lt)

/-- The term index has the retained entries. -/
theorem Whole.termByIndex (h : Whole codec s) {i : Nat} :
    s.termIndexes.termByIndex[i]? = (retainedEntryAt s.retainedLogEntries i).map (·.term) := by
  obtain ⟨f, hf⟩ := h.contiguous
  rw [h.terms, termIndexesFromEntries, extend_termByIndex]
  cases hget : retainedEntryAt s.retainedLogEntries i with
  | some e =>
    obtain ⟨he, rfl⟩ := hf.retainedEntryAt_eq_some.1 hget
    exact OrdMap.get_foldl_insert_of_mem RaftLogEntry.index RaftLogEntry.term _ _ (nodup_of_contiguous hf) he
  | none =>
    have hnot : i ∉ s.retainedLogEntries.map RaftLogEntry.index := by
      intro hmem
      obtain ⟨e, he, hei⟩ := List.mem_map.1 hmem
      rw [hf.retainedEntryAt_eq_some.2 ⟨he, hei⟩] at hget
      cases hget
    rw [OrdMap.get_foldl_insert_of_notMem RaftLogEntry.index RaftLogEntry.term _ _ hnot]
    exact Std.ExtTreeMap.getElem?_empty

/-- From behind the snapshot to the end, every index is retained. -/
theorem Whole.retained (h : Whole codec s) {i : Nat} (hlo : s.snapshotIndex < i) (hhi : i ≤ s.lastIndex) :
    ∃ e ∈ s.retainedLogEntries, e.index = i := by
  obtain ⟨f, hf⟩ := h.contiguous
  cases hlast : s.retainedLogEntries.getLast? with
  | none =>
    rw [h.lastIndex_of_nil (List.getLast?_eq_none_iff.1 hlast)] at hhi
    omega
  | some b =>
    rw [(h.lastIndex_of_getLast hlast).1] at hhi
    have hne : s.retainedLogEntries ≠ [] := List.ne_nil_of_mem (List.mem_of_getLast? hlast)
    have hhead := List.head?_eq_some_head hne
    have hfirst := h.covers _ hhead
    exact hf.between (List.mem_of_head? hhead) (List.mem_of_getLast? hlast) (by omega) hhi

/-! ## The incoming entries -/

theorem mem_incomingOf (h : Shaped codec prev prevTerm entries) :
    e ∈ s.incomingOf prev entries ↔ e ∈ entries ∧ s.snapshotIndex < e.index := by
  rw [incomingOf_eq h, List.mem_filter, decide_eq_true_eq]

/-! ## Comparing with the local log -/

/-- The local log has the entry: its term and its command. -/
def Has (s : RaftLogStore κ) (e : LogEntry κ) : Prop :=
  ∃ a ∈ s.retainedLogEntries, a.index = e.index ∧ a.term = e.term ∧ a.command.command = e.command.command

/-- The local log has an entry of another term there. -/
def Conflicts (s : RaftLogStore κ) (e : LogEntry κ) : Prop :=
  ∃ a ∈ s.retainedLogEntries, a.index = e.index ∧ a.term ≠ e.term

/-- The local entry is missing, or has another term. -/
def Differs (s : RaftLogStore κ) (e : LogEntry κ) : Prop :=
  ∀ a ∈ s.retainedLogEntries, a.index = e.index → a.term ≠ e.term

theorem Has.not_differs (h : Has s e) : ¬Differs s e := by
  obtain ⟨a, ha, hindex, hterm, -⟩ := h
  exact fun hd => hd a ha hindex hterm

theorem Whole.not_conflicts (h : Whole codec s) (hs : Has s e) : ¬Conflicts s e := by
  obtain ⟨a, ha, hindex, hterm, -⟩ := hs
  intro ⟨b, hb, hbi, hbt⟩
  rw [h.unique hb ha (hbi.trans hindex.symm)] at hbt
  exact hbt hterm

theorem Whole.conflicts_differs (h : Whole codec s) (hc : Conflicts s e) : Differs s e := by
  obtain ⟨a, ha, hindex, hterm⟩ := hc
  intro b hb hbi
  rwa [h.unique hb ha (hbi.trans hindex.symm)]

theorem Whole.differs_of_behind (h : Whole codec s) (he : s.lastIndex < e.index) : Differs s e := by
  intro a ha hindex
  have := h.index_le ha
  omega

section Scan

variable [DecidableEq κ]

/-- **What the scan finds.** It passes entries the log has, and stops at the first
that differs: the log ends right before it, or has an entry of another term. -/
theorem Whole.scan (h : Whole codec s) {g : Nat} (hes : Contiguous g es) (hlo : s.snapshotIndex < g)
    (hhi : g ≤ s.lastIndex + 1) {scan : RaftLogState.IncomingScan (Stamped κ)} (hs : s.scanIncoming es = .ok scan) :
    ∃ before rest, es = before ++ rest ∧ (∀ e ∈ before, Has s e) ∧
      (scan = .present ∧ rest = [] ∨
        scan = .rewrite rest ∧ (∃ e, rest.head? = some e ∧ Conflicts s e) ∨
        scan = .append rest ∧ ∃ e, rest.head? = some e ∧ e.index = s.lastIndex + 1) := by
  obtain ⟨f, hf⟩ := h.contiguous
  induction es generalizing g with
  | nil =>
    cases hs
    exact ⟨[], [], rfl, by simp, .inl ⟨rfl, rfl⟩⟩
  | cons e es ih =>
    have hindex : e.index = g := hes.1
    simp only [scanIncoming, h.termByIndex] at hs
    cases hget : retainedEntryAt s.retainedLogEntries e.index with
    | none =>
      -- a missing entry is one behind the end
      have hbehind : ¬e.index ≤ s.lastIndex := by
        intro hle
        obtain ⟨a, ha, hai⟩ := h.retained (by omega) hle
        rw [hf.retainedEntryAt_eq_some.2 ⟨ha, hai⟩] at hget
        cases hget
      simp only [hget, Option.map_none, if_neg hbehind] at hs
      cases hs
      exact ⟨[], e :: es, rfl, by simp, .inr (.inr ⟨rfl, e, rfl, by omega⟩)⟩
    | some a =>
      obtain ⟨ha, hai⟩ := hf.retainedEntryAt_eq_some.1 hget
      simp only [hget, Option.map_some] at hs
      split at hs
      · rename_i hterm
        split at hs
        · cases hs
        · rename_i hcommand
          have hle := h.index_le ha
          obtain ⟨before, rest, rfl, hbefore, hstop⟩ := ih hes.2 (by omega) (by omega) hs
          refine ⟨e :: before, rest, rfl, fun b hb => ?_, hstop⟩
          rcases List.mem_cons.1 hb with rfl | hb
          · exact ⟨a, ha, hai, hterm, by simpa using hcommand⟩
          · exact hbefore b hb
      · rename_i hterm
        cases hs
        exact ⟨[], e :: es, rfl, by simp, .inr (.inl ⟨rfl, e, rfl, a, ha, hai, hterm⟩)⟩

end Scan

/-! ## The two ways to take entries in -/

theorem attempt_eq_ok {β ρ : Type} {result : Except BrokerRaftError β} {next : β → Outcome κ ρ} {value : ρ}
    (h : s.attempt result next = (.ok value, s')) : ∃ b, result = .ok b ∧ next b = (.ok value, s') := by
  unfold attempt at h
  split at h
  · cases h
  · exact ⟨_, rfl, h⟩

/-- An error leaves the store, if it does behind every `?`. -/
theorem attempt_error {β ρ : Type} {result : Except BrokerRaftError β} {next : β → Outcome κ ρ}
    (hnext : ∀ b, result = .ok b → ∀ err, (next b).1 = .error err → (next b).2 = s) :
    ∀ err, (s.attempt result next).1 = .error err → (s.attempt result next).2 = s := by
  unfold attempt
  split
  · exact fun _ _ => rfl
  · exact hnext _ rfl

/-- Behind a repair. -/
structure Repaired (codec : StoreCodec κ π) (s s' : RaftLogStore κ) (commit : Nat) (rest : List (LogEntry κ)) : Prop where
  committed : ∀ e ∈ rest.head?, commit < e.index
  retained : ∀ e ∈ rest.head?, s'.retainedLogEntries =
    s.retainedLogEntries.take (retainedEntryLowerBound s.retainedLogEntries e.index) ++ rest
  checked : ∀ e ∈ rest.head?, validateRepairedLogSuffix codec s.retainedLogEntries
    (retainedEntryLowerBound s.retainedLogEntries e.index) rest s.latestSnapshot = .ok ()
  snapshot : s'.latestSnapshot = s.latestSnapshot

theorem failReloaded_not_ok {ρ : Type} {what : String} {err : BrokerRaftError} {value : ρ} :
    s.failReloaded codec io what err ≠ (.ok value, s') := by
  unfold failReloaded
  split
  · simp
  · simp

theorem rewriteFrom_ok {report report' : AppendReport} (he : r.head? = some e)
    (hok : s.rewriteFrom codec io commit report r = (.ok report', s')) :
    Repaired codec s s' commit r ∧ report'.toRaftAppendReport = report.toRaftAppendReport := by
  unfold rewriteFrom at hok
  simp only [he, Option.map_some, Option.getD_some] at hok
  split at hok
  · cases hok
  rename_i hcommit
  obtain ⟨_, -, hok⟩ := attempt_eq_ok hok
  obtain ⟨_, hchecked, hok⟩ := attempt_eq_ok hok
  obtain ⟨_, -, hok⟩ := attempt_eq_ok hok
  split at hok
  · exact absurd hok failReloaded_not_ok
  split at hok
  · exact absurd hok failReloaded_not_ok
  cases hok
  refine ⟨⟨?_, ?_, ?_, rfl⟩, rfl⟩
  · intro b hb
    rw [he] at hb
    cases hb
    omega
  · intro b hb
    rw [he] at hb
    cases hb
    rfl
  · intro b hb
    rw [he] at hb
    cases hb
    exact hchecked

theorem rewriteFrom_error (hio : io.write = .ok ()) {report : AppendReport} :
    ∀ err, (s.rewriteFrom codec io commit report r).1 = .error err →
      (s.rewriteFrom codec io commit report r).2 = s := by
  unfold rewriteFrom
  simp only
  split
  · exact fun _ _ => rfl
  refine attempt_error fun _ _ => attempt_error fun _ _ => attempt_error fun _ hcontext => ?_
  simp only [hio]
  have hadd := add_ok_of_context hcontext
  split
  · rename_i hfail
    rw [hadd] at hfail
    cases hfail
  · intro err herr
    cases herr

/-- Behind an append. -/
structure Appended (s s' : RaftLogStore κ) (commit : Nat) (rest : List (LogEntry κ)) : Prop where
  committed : ∀ e ∈ rest.head?, commit < e.index
  retained : s'.retainedLogEntries = s.retainedLogEntries ++ rest
  snapshot : s'.latestSnapshot = s.latestSnapshot

theorem appendOnly_ok {report report' : AppendReport} (he : r.head? = some e)
    (hok : s.appendOnly codec io commit report r = (.ok report', s')) :
    Appended s s' commit r ∧ report'.toRaftAppendReport = report.toRaftAppendReport := by
  unfold appendOnly at hok
  simp only [he, Option.map_some, Option.getD_some] at hok
  split at hok
  · cases hok
  rename_i hcommit
  obtain ⟨_, -, hok⟩ := attempt_eq_ok hok
  obtain ⟨_, -, hok⟩ := attempt_eq_ok hok
  split at hok
  · exact absurd hok failReloaded_not_ok
  cases hok
  refine ⟨⟨?_, rfl, rfl⟩, rfl⟩
  intro b hb
  rw [he] at hb
  cases hb
  omega

theorem appendOnly_error (h : Sound codec s) {report : AppendReport} :
    ∀ err, (s.appendOnly codec io commit report r).1 = .error err →
      (s.appendOnly codec io commit report r).2 = s := by
  unfold appendOnly
  simp only
  split
  · exact fun _ _ => rfl
  refine attempt_error fun _ hcontext => attempt_error fun _ _ => ?_
  have hadd := h.add_ok hcontext
  split
  · rename_i hfail
    rw [hadd] at hfail
    cases hfail
  · intro err herr
    cases herr

/-! ## The request as a whole -/

theorem prevConflict_eq_none : s.appendEntriesPrevConflict prev prevTerm = none ↔
    prev ≤ s.lastIndex ∧ s.termAtIndex prev = some prevTerm := by
  unfold appendEntriesPrevConflict
  split
  · rename_i hlt
    simp only [reduceCtorEq, false_iff, not_and]
    omega
  rename_i hle
  split
  · rename_i term hterm
    split
    · rename_i heq
      subst heq
      simp [hterm, Nat.le_of_not_lt hle]
    · rename_i hne
      simp [hterm, hne]
  · rename_i hterm
    simp [hterm]

theorem prevConflict_success {report : AppendReport} (h : s.appendEntriesPrevConflict prev prevTerm = some report) :
    report.success = false := by
  unfold appendEntriesPrevConflict at h
  split at h
  · cases h
    rfl
  split at h
  · split at h
    · cases h
    · cases h
      rfl
  · cases h
    rfl

section Request

variable [DecidableEq κ]

/-- The part of `append_entries_from_leader` behind the previous-entry check. -/
def takeIncoming (codec : StoreCodec κ π) (io : StoreIo κ π) (s : RaftLogStore κ) (prev commit : Nat)
    (entries : List (LogEntry κ)) : Outcome κ AppendReport :=
  let incoming := s.incomingOf prev entries
  let report : AppendReport :=
    { success := true, matchIndex := (incoming.getLast?.map (·.index)).getD prev
      conflictIndex := none, conflictTerm := none }
  s.attempt (s.scanIncoming incoming) fun scan =>
  match scan with
  | .present => (.ok report, s)
  | .rewrite rest => s.rewriteFrom codec io commit report rest
  | .append rest => s.appendOnly codec io commit report rest

/-- The previous-entry check inside `append_entries_from_leader` is
`append_entries_prev_conflict`. -/
theorem appendEntriesFromLeader_eq (hshape : validateAppendEntriesShape codec prev prevTerm leaderTerm entries = .ok ()) :
    s.appendEntriesFromLeader codec io prev prevTerm leaderTerm commit entries =
      match s.appendEntriesPrevConflict prev prevTerm with
      | some report => (.ok report, s)
      | none => s.takeIncoming codec io prev (max commit s.commitIndex) entries := by
  unfold appendEntriesFromLeader appendEntriesPrevConflict
  rw [hshape]
  simp only [attempt]
  split
  · rfl
  cases hterm : s.termAtIndex prev with
  | none => rfl
  | some term =>
    by_cases heq : term = prevTerm
    · simp only [heq, ne_eq, not_true_eq_false, if_false, if_true]
      rfl
    · simp [heq]

/-- What the entries of an accepted request did. -/
inductive Took (codec : StoreCodec κ π) (s s' : RaftLogStore κ) (commit : Nat) : List (LogEntry κ) → Prop where
  | nothing (same : s' = s) : Took codec s s' commit []
  | repaired {e : LogEntry κ} {rest : List (LogEntry κ)} (conflict : Conflicts s e)
      (result : Repaired codec s s' commit (e :: rest)) : Took codec s s' commit (e :: rest)
  | appended {e : LogEntry κ} {rest : List (LogEntry κ)} (behind : e.index = s.lastIndex + 1)
      (result : Appended s s' commit (e :: rest)) : Took codec s s' commit (e :: rest)

theorem Whole.takeIncoming_ok (h : Whole codec s) (hshaped : Shaped codec prev prevTerm entries)
    (hprev : prev ≤ s.lastIndex) {report : AppendReport}
    (hok : s.takeIncoming codec io prev commit entries = (.ok report, s')) :
    (report.success = true ∧
        report.matchIndex = ((entries.filter (s.snapshotIndex < ·.index)).getLast?.map (·.index)).getD prev) ∧
      ∃ before rest, s.incomingOf prev entries = before ++ rest ∧ (∀ e ∈ before, Has s e) ∧
        Took codec s s' commit rest := by
  unfold takeIncoming at hok
  obtain ⟨scan, hscan, hok⟩ := attempt_eq_ok hok
  have hreach := h.snapshotIndex_le
  obtain ⟨before, rest, hsplit, hbefore, hstop⟩ :=
    h.scan (incomingOf_contiguous hshaped) (by omega) (by omega) hscan
  rw [← incomingOf_eq hshaped]
  rcases hstop with ⟨rfl, rfl⟩ | ⟨rfl, e, he, hconflict⟩ | ⟨rfl, e, he, hbehind⟩
  · cases hok
    exact ⟨⟨rfl, rfl⟩, before, [], hsplit, hbefore, .nothing rfl⟩
  · obtain ⟨hrepaired, hreport⟩ := rewriteFrom_ok he hok
    have hsuccess := congrArg RaftAppendReport.success hreport
    have hmatch := congrArg RaftAppendReport.matchIndex hreport
    obtain ⟨tail, rfl⟩ := List.head?_eq_some_iff.1 he
    exact ⟨⟨hsuccess, hmatch⟩, before, _, hsplit, hbefore, .repaired hconflict hrepaired⟩
  · obtain ⟨happended, hreport⟩ := appendOnly_ok he hok
    have hsuccess := congrArg RaftAppendReport.success hreport
    have hmatch := congrArg RaftAppendReport.matchIndex hreport
    obtain ⟨tail, rfl⟩ := List.head?_eq_some_iff.1 he
    exact ⟨⟨hsuccess, hmatch⟩, before, _, hsplit, hbefore, .appended hbehind happended⟩

theorem Whole.takeIncoming_error (h : Whole codec s) (hio : io.write = .ok ()) :
    ∀ err, (s.takeIncoming codec io prev commit entries).1 = .error err →
      (s.takeIncoming codec io prev commit entries).2 = s := by
  unfold takeIncoming
  refine attempt_error fun scan _ => ?_
  cases scan with
  | present => intro err herr; cases herr
  | rewrite rest => exact rewriteFrom_error hio
  | append rest => exact appendOnly_error h.toSound

end Request

/-! ## The log behind a request -/

/-- The first incoming index above the snapshot and the previous entry at which the
local entry is missing or has another term. -/
structure FirstDifference (s : RaftLogStore κ) (prev : Nat) (entries : List (LogEntry κ)) (d : Nat) : Prop where
  differs : ∃ e ∈ entries, s.snapshotIndex < e.index ∧ prev < e.index ∧ e.index = d ∧ Differs s e
  before : ∀ e ∈ entries, s.snapshotIndex < e.index → prev < e.index → e.index < d → ¬Differs s e

/-- What an accepted request did to the log, and what the answer says. -/
structure AppendedExactly (s s' : RaftLogStore κ) (prev : Nat) (entries : List (LogEntry κ)) (report : AppendReport) :
    Prop where
  /-- The log is what it was below the first difference, followed by the incoming
  entries from there on. -/
  spliced : ∀ d, FirstDifference s prev entries d →
    s'.retainedLogEntries = s.retainedLogEntries.filter (·.index < d) ++ entries.filter (d ≤ ·.index)
  /-- Without a difference nothing changed at all. -/
  same : (∀ d, ¬FirstDifference s prev entries d) → s'.retainedLogEntries = s.retainedLogEntries
  /-- Every incoming entry above the snapshot is in the log. -/
  present : ∀ e ∈ entries, s.snapshotIndex < e.index → Has s' e
  /-- What the log had stays exactly if nothing conflicts with it. -/
  survives : s.retainedLogEntries <+: s'.retainedLogEntries ↔
    ∀ e ∈ entries, s.snapshotIndex < e.index → prev < e.index → ¬Conflicts s e
  matchIndex : report.matchIndex = ((entries.filter (s.snapshotIndex < ·.index)).getLast?.map (·.index)).getD prev

theorem filter_lt_append (hl : ∀ e ∈ l, e.index < d) (hr : ∀ e ∈ r, d ≤ e.index) :
    (l ++ r).filter (·.index < d) = l := by
  rw [List.filter_append, List.filter_eq_self.2 fun e he => by simpa using hl e he,
    List.filter_eq_nil_iff.2 fun e he => by simpa using hr e he, List.append_nil]

theorem filter_le_append {c : Nat} (hr : ∀ e ∈ r, c < e.index) :
    (l ++ r).filter (·.index ≤ c) = l.filter (·.index ≤ c) := by
  have hnone : r.filter (·.index ≤ c) = [] := List.filter_eq_nil_iff.2 fun e he => by simpa using hr e he
  rw [List.filter_append, hnone, List.append_nil]

/-- What is kept when the log is cut before an index. -/
theorem filter_lt_eq_take (h : Ordered l) : l.filter (·.index < d) = l.take (retainedEntryLowerBound l d) := by
  conv_lhs => rw [← List.take_append_drop (retainedEntryLowerBound l d) l]
  exact filter_lt_append (fun e he => lt_of_mem_take he) fun e he => h.le_of_mem_drop he

/-- The incoming entries, split where the scan stopped. -/
structure Split (codec : StoreCodec κ π) (s : RaftLogStore κ) (prev prevTerm : Nat)
    (entries before rest : List (LogEntry κ)) : Prop where
  shaped : Shaped codec prev prevTerm entries
  split : s.incomingOf prev entries = before ++ rest
  matched : ∀ e ∈ before, Has s e

namespace Split

variable {before rest tail : List (LogEntry κ)}

theorem mem (h : Split codec s prev prevTerm entries before rest) :
    e ∈ before ∨ e ∈ rest ↔ e ∈ entries ∧ s.snapshotIndex < e.index := by
  rw [← List.mem_append, ← h.split, mem_incomingOf h.shaped]

theorem increasing (h : Split codec s prev prevTerm entries before rest) :
    (before ++ rest).Pairwise fun a b => a.index < b.index :=
  h.split ▸ increasing_of_contiguous (incomingOf_contiguous h.shaped)

theorem head_mem (h : Split codec s prev prevTerm entries before (e :: tail)) :
    e ∈ entries ∧ s.snapshotIndex < e.index :=
  h.mem.1 (.inr (List.mem_cons_self))

theorem lt_head (h : Split codec s prev prevTerm entries before (e :: tail)) (ha : a ∈ before) : a.index < e.index :=
  (List.pairwise_append.1 h.increasing).2.2 a ha e (by simp)

theorem head_le (h : Split codec s prev prevTerm entries before (e :: tail)) (ha : a ∈ e :: tail) :
    e.index ≤ a.index := by
  rcases List.mem_cons.1 ha with rfl | ha
  · exact Nat.le_refl _
  · exact Nat.le_of_lt (List.rel_of_pairwise_cons (List.pairwise_append.1 h.increasing).2.1 ha)

/-- The request from where the scan stopped. -/
theorem filter_head_le (h : Split codec s prev prevTerm entries before (e :: tail)) :
    entries.filter (e.index ≤ ·.index) = e :: tail := by
  have hsnap := h.head_mem.2
  have habove : entries.filter (e.index ≤ ·.index) =
      (entries.filter (s.snapshotIndex < ·.index)).filter (e.index ≤ ·.index) := by
    rw [List.filter_filter]
    refine List.filter_congr fun a _ => ?_
    rw [← Bool.decide_and, decide_eq_decide]
    omega
  rw [habove, ← incomingOf_eq h.shaped, h.split, List.filter_append,
    List.filter_eq_nil_iff.2 fun a ha => by simpa using h.lt_head ha,
    List.filter_eq_self.2 fun a ha => by simpa using h.head_le ha, List.nil_append]

theorem contiguous (h : Split codec s prev prevTerm entries before rest) :
    Contiguous (max prev s.snapshotIndex + 1) (before ++ rest) :=
  h.split ▸ incomingOf_contiguous h.shaped

/-- What is left of the request passes the checks it passed as a whole. -/
theorem passes (h : Split codec s prev prevTerm entries before rest) : Passes codec (before ++ rest) := by
  obtain ⟨skipped, hskipped⟩ : s.incomingOf prev entries <:+ entries := List.dropWhile_suffix _
  have hall := h.shaped.passes
  rw [← hskipped, h.split] at hall
  exact (passes_append.1 hall).2.1

/-- An index names one entry of the request. -/
theorem unique (h : Split codec s prev prevTerm entries before rest) (ha : a ∈ entries) (he : e ∈ entries)
    (hindex : a.index = e.index) : a = e := by
  have ha := h.shaped.contiguous.retainedEntryAt_eq_some.2 ⟨ha, hindex⟩
  have he := h.shaped.contiguous.retainedEntryAt_eq_some.2 ⟨he, rfl⟩
  exact Option.some.inj (ha.symm.trans he)

/-- Every entry of a request is behind its previous one. -/
theorem prev_lt (h : Split codec s prev prevTerm entries before rest) (he : e ∈ entries) : prev < e.index := by
  obtain ⟨k, hk⟩ := List.mem_iff_getElem?.1 he
  have := h.shaped.contiguous.get hk
  omega

/-- Where the scan stops, the first difference is. -/
theorem firstDifference (h : Split codec s prev prevTerm entries before (e :: tail)) (he : Differs s e) :
    FirstDifference s prev entries d ↔ d = e.index := by
  obtain ⟨hmem, hsnap⟩ := h.head_mem
  constructor
  · intro hd
    obtain ⟨b, hb, hbs, -, rfl, hdiff⟩ := hd.differs
    rcases h.mem.2 ⟨hb, hbs⟩ with hbefore | hrest
    · exact absurd hdiff (h.matched b hbefore).not_differs
    · by_contra hne
      have hle := h.head_le hrest
      exact hd.before e hmem hsnap (h.prev_lt hmem) (by omega) he
  · intro hd
    subst hd
    refine ⟨⟨e, hmem, hsnap, h.prev_lt hmem, rfl, he⟩, fun b hb hbs _ hlt hdiff => ?_⟩
    rcases h.mem.2 ⟨hb, hbs⟩ with hbefore | hrest
    · exact (h.matched b hbefore).not_differs hdiff
    · have := h.head_le hrest
      omega

end Split

theorem Has.mono {s s' : RaftLogStore κ} (h : Has s e)
    (hkeep : ∀ a ∈ s.retainedLogEntries, a.index = e.index → a ∈ s'.retainedLogEntries) : Has s' e := by
  obtain ⟨a, ha, hindex, hterm, hcommand⟩ := h
  exact ⟨a, hkeep a ha hindex, hindex, hterm, hcommand⟩

theorem Has.of_mem (h : e ∈ s.retainedLogEntries) : Has s e := ⟨e, h, rfl, rfl, rfl⟩

variable {before rest tail : List (LogEntry κ)} {report : AppendReport}

/-- The log was cut before the entry that conflicts. -/
theorem AppendedExactly.of_repaired (h : Whole codec s) (hsplit : Split codec s prev prevTerm entries before (e :: tail))
    (hconflict : Conflicts s e) (hrep : Repaired codec s s' commit (e :: tail))
    (hmatch : report.matchIndex = ((entries.filter (s.snapshotIndex < ·.index)).getLast?.map (·.index)).getD prev) :
    AppendedExactly s s' prev entries report := by
  have hretained := hrep.retained e rfl
  have hkept : ∀ a ∈ s.retainedLogEntries.take (retainedEntryLowerBound s.retainedLogEntries e.index),
      a.index < e.index := fun a ha => lt_of_mem_take ha
  have hfirst : ∀ d, FirstDifference s prev entries d ↔ d = e.index :=
    fun d => hsplit.firstDifference (h.conflicts_differs hconflict)
  refine ⟨fun d hd => ?_, fun hno => absurd ((hfirst _).2 rfl) (hno e.index), fun b hb hbs => ?_, ?_, hmatch⟩
  · rw [(hfirst d).1 hd, hretained, hsplit.filter_head_le, filter_lt_eq_take h.ordered]
  · rcases hsplit.mem.2 ⟨hb, hbs⟩ with hbefore | hrest
    · refine (hsplit.matched b hbefore).mono fun a ha hindex => ?_
      have hlt := hsplit.lt_head hbefore
      rw [hretained, ← filter_lt_eq_take h.ordered]
      exact List.mem_append_left _ (List.mem_filter.2 ⟨ha, by simpa [hindex] using hlt⟩)
    · exact Has.of_mem (hretained ▸ List.mem_append_right _ hrest)
  · obtain ⟨hmem, hsnap⟩ := hsplit.head_mem
    refine iff_of_false (fun hpre => ?_) fun hno => hno e hmem hsnap (hsplit.prev_lt hmem) hconflict
    obtain ⟨a, ha, hindex, hterm⟩ := hconflict
    have ha' := hpre.subset ha
    rw [hretained] at ha'
    rcases List.mem_append.1 ha' with hin | hin
    · have := hkept a hin
      omega
    · rcases List.mem_cons.1 hin with rfl | hin
      · exact hterm rfl
      · have := List.rel_of_pairwise_cons (List.pairwise_append.1 hsplit.increasing).2.1 hin
        omega

/-- The log was continued where it ended. -/
theorem AppendedExactly.of_appended (h : Whole codec s) (hsplit : Split codec s prev prevTerm entries before (e :: tail))
    (hbehind : e.index = s.lastIndex + 1) (happ : Appended s s' commit (e :: tail))
    (hmatch : report.matchIndex = ((entries.filter (s.snapshotIndex < ·.index)).getLast?.map (·.index)).getD prev) :
    AppendedExactly s s' prev entries report := by
  have hnew : ∀ b ∈ e :: tail, s.lastIndex < b.index := by
    intro b hb
    have := hsplit.head_le hb
    omega
  have hfirst : ∀ d, FirstDifference s prev entries d ↔ d = e.index :=
    fun d => hsplit.firstDifference (h.differs_of_behind (by omega))
  refine ⟨fun d hd => ?_, fun hno => absurd ((hfirst _).2 rfl) (hno e.index), fun b hb hbs => ?_, ?_, hmatch⟩
  · have hold : ∀ a ∈ s.retainedLogEntries, a.index < e.index := by
      intro a ha
      have := h.index_le ha
      omega
    rw [(hfirst d).1 hd, happ.retained, hsplit.filter_head_le,
      List.filter_eq_self.2 fun a ha => by simpa using hold a ha]
  · rw [Has, happ.retained]
    rcases hsplit.mem.2 ⟨hb, hbs⟩ with hbefore | hrest
    · obtain ⟨a, ha, hsame⟩ := hsplit.matched b hbefore
      exact ⟨a, List.mem_append_left _ ha, hsame⟩
    · exact ⟨b, List.mem_append_right _ hrest, rfl, rfl, rfl⟩
  · refine iff_of_true (happ.retained ▸ List.prefix_append _ _) fun b hb hbs _ hconflict => ?_
    rcases hsplit.mem.2 ⟨hb, hbs⟩ with hbefore | hrest
    · exact h.not_conflicts (hsplit.matched b hbefore) hconflict
    · obtain ⟨a, ha, hindex, -⟩ := hconflict
      have := h.index_le ha
      have := hnew b hrest
      omega

/-- The log had everything. -/
theorem AppendedExactly.of_same (h : Whole codec s) (hsplit : Split codec s prev prevTerm entries before [])
    (hmatch : report.matchIndex = ((entries.filter (s.snapshotIndex < ·.index)).getLast?.map (·.index)).getD prev) :
    AppendedExactly s s prev entries report := by
  have hhas : ∀ b ∈ entries, s.snapshotIndex < b.index → Has s b := by
    intro b hb hbs
    exact hsplit.matched b ((hsplit.mem.2 ⟨hb, hbs⟩).resolve_right (by simp))
  refine ⟨fun d hd => ?_, fun _ => rfl, hhas, ?_, hmatch⟩
  · obtain ⟨b, hb, hbs, -, -, hdiff⟩ := hd.differs
    exact absurd hdiff (hhas b hb hbs).not_differs
  · exact iff_of_true List.prefix_rfl fun b hb hbs _ => h.not_conflicts (hhas b hb hbs)

/-- What is committed stays as it is. -/
theorem Took.committed (h : Whole codec s) (hsplit : Split codec s prev prevTerm entries before rest)
    (htook : Took codec s s' commit rest) :
    s'.retainedLogEntries.filter (·.index ≤ commit) = s.retainedLogEntries.filter (·.index ≤ commit) := by
  cases htook with
  | nothing same => rw [same]
  | @repaired e tail conflict result =>
    have hcommit := result.committed e rfl
    rw [result.retained e rfl, filter_le_append fun a ha => Nat.lt_of_lt_of_le hcommit (hsplit.head_le ha)]
    conv_rhs => rw [← List.take_append_drop (retainedEntryLowerBound s.retainedLogEntries e.index) s.retainedLogEntries]
    exact (filter_le_append fun a ha => Nat.lt_of_lt_of_le hcommit (h.ordered.le_of_mem_drop ha)).symm
  | @appended e tail behind result =>
    have hcommit := result.committed e rfl
    rw [result.retained, filter_le_append fun a ha => Nat.lt_of_lt_of_le hcommit (hsplit.head_le ha)]

/-- **A follower's append is exact.** For every store with exact caches and a log
without a gap, and every request of the right shape whose writes succeed: an
accepted request leaves the log's entries below the first difference followed by the
incoming ones from there on, brings every incoming entry above the snapshot into the
log, takes away what the log had only for an entry that conflicts with it, and reports
the last index it looked at. A request
that is not accepted changes nothing, a committed entry never changes, and the
separate previous-entry check reports exactly when the append would, and the same. -/
theorem appendEntriesFromLeader_appends [DecidableEq κ] (h : Whole codec s)
    (hshape : validateAppendEntriesShape codec prev prevTerm leaderTerm entries = .ok ()) (hio : io.write = .ok ())
    {result : Except BrokerRaftError AppendReport}
    (hres : s.appendEntriesFromLeader codec io prev prevTerm leaderTerm commit entries = (result, s')) :
    (∀ report, result = .ok report → report.success = true → AppendedExactly s s' prev entries report) ∧
      ((∀ report, result = .ok report → report.success = false) → s' = s) ∧
      s'.retainedLogEntries.filter (·.index ≤ max commit s.commitIndex) =
        s.retainedLogEntries.filter (·.index ≤ max commit s.commitIndex) ∧
      ∀ report, s.appendEntriesPrevConflict prev prevTerm = some report ↔
        result = .ok report ∧ report.success = false := by
  rw [appendEntriesFromLeader_eq hshape] at hres
  have hshaped := validateAppendEntriesShape_shaped hshape
  cases hconflict : s.appendEntriesPrevConflict prev prevTerm with
  | some report =>
    simp only [hconflict, Prod.mk.injEq] at hres
    obtain ⟨rfl, rfl⟩ := hres
    have hfailed := prevConflict_success hconflict
    refine ⟨fun r hr hsuccess => ?_, fun _ => rfl, rfl, fun r => ?_⟩
    · cases hr
      rw [hfailed] at hsuccess
      cases hsuccess
    · simp only [Option.some.injEq, Except.ok.injEq]
      exact ⟨fun heq => ⟨heq, heq ▸ hfailed⟩, fun heq => heq.1⟩
  | none =>
    simp only [hconflict] at hres
    have hprev := (prevConflict_eq_none.1 hconflict).1
    cases result with
    | error err =>
      have hsame : (s.takeIncoming codec io prev (max commit s.commitIndex) entries).2 = s :=
        h.takeIncoming_error hio err (by rw [hres])
      rw [hres] at hsame
      subst hsame
      simp
    | ok report =>
      obtain ⟨⟨hsuccess, hmatch⟩, before, rest, hsplit, hbefore, htook⟩ := h.takeIncoming_ok hshaped hprev hres
      have hsplit : Split codec s prev prevTerm entries before rest := ⟨hshaped, hsplit, hbefore⟩
      refine ⟨fun r hr _ => ?_, fun hno => ?_, htook.committed h hsplit, fun r => ?_⟩
      · cases hr
        cases htook with
        | nothing same =>
          rw [same]
          exact AppendedExactly.of_same h hsplit hmatch
        | repaired conflict result => exact AppendedExactly.of_repaired h hsplit conflict result hmatch
        | appended behind result => exact AppendedExactly.of_appended h hsplit behind result hmatch
      · have := hno report rfl
        rw [hsuccess] at this
        cases this
      · simp only [reduceCtorEq, Except.ok.injEq, false_iff, not_and]
        intro heq
        rw [← heq, hsuccess]
        simp

/-- A command of term 3, and a snapshot that covers it. -/
def Sample.trailing : RaftLogStore RequestIdentity :=
  runOps Sample.identities {} [({}, .appendBatch 3 [⟨"a", "f"⟩]), ({}, .writeSnapshot 1 3 ())]

theorem Sample.trailing_whole : Whole Sample.identities Sample.trailing := by
  have hopen : openWith Sample.identities {} 0 0 = .ok {} := rfl
  refine runOps_whole (openWith_whole hopen) ⟨?_, trivial, trivial⟩
  show 0 + 1 ≤ u64Max
  decide

/-- The leader's entries from the start: the one the follower has, and the next. -/
def Sample.next : List (LogEntry RequestIdentity) := [⟨1, 3, 0, ⟨"a", "f"⟩⟩, ⟨2, 3, 0, ⟨"b", "g"⟩⟩]

theorem appendEntriesFromLeader_appends_next :
    (Sample.trailing.appendEntriesFromLeader Sample.identities {} 0 0 3 0 Sample.next).1 =
        .ok { success := true, matchIndex := 2, conflictIndex := none, conflictTerm := none, appendedEntries := 1 } ∧
      AppendedExactly Sample.trailing
        (Sample.trailing.appendEntriesFromLeader Sample.identities {} 0 0 3 0 Sample.next).2 0 Sample.next
        { success := true, matchIndex := 2, conflictIndex := none, conflictTerm := none, appendedEntries := 1 } := by
  have hres : (Sample.trailing.appendEntriesFromLeader Sample.identities {} 0 0 3 0 Sample.next).1 =
      .ok { success := true, matchIndex := 2, conflictIndex := none, conflictTerm := none, appendedEntries := 1 } := by
    decide +kernel
  have hshape : validateAppendEntriesShape Sample.identities 0 0 3 Sample.next = .ok () := by decide +kernel
  have hio : ({} : StoreIo RequestIdentity Unit).write = .ok () := rfl
  exact ⟨hres, (appendEntriesFromLeader_appends Sample.trailing_whole hshape hio (Prod.ext hres rfl)).1 _ rfl rfl⟩

/-! ## Restarting behind an append -/

/-- The entry right behind the snapshot is not of an older term than the last
retained one, where that is the snapshot's own. -/
def TermsFit (s : RaftLogStore κ) (entries : List (LogEntry κ)) : Prop :=
  s.lastIndex = s.snapshotIndex → s.retainedLogEntries ≠ [] →
    ∀ e ∈ entries, e.index = s.lastIndex + 1 → s.lastTerm ≤ e.term

/-- The boundary of a log is at its beginning. -/
theorem boundaryOk_append {first last last' : LogEntry κ} {snapshot : Option StoredSnapshotMetadata}
    (h : BoundaryOk l first last snapshot) (hlast : last.index ≤ last'.index) :
    BoundaryOk (l ++ r) first last' snapshot := by
  cases snapshot with
  | none => exact h
  | some m =>
    obtain ⟨hend, hroom, hfirst, hin⟩ := h
    refine ⟨by omega, hroom, hfirst, fun hle => ?_⟩
    obtain ⟨a, hfind, hterm⟩ := hin hle
    exact ⟨a, by rw [List.find?_append, hfind, Option.some_or], hterm⟩

/-- Entries that may stand behind a log leave its boundary as it is. -/
theorem boundary_append {snapshot : Option StoredSnapshotMetadata} (hl : l ≠ []) (hlr : Ordered (l ++ r))
    (h : ∀ first ∈ l.head?, ∀ last ∈ l.getLast?, BoundaryOk l first last snapshot) :
    ∀ first ∈ (l ++ r).head?, ∀ last ∈ (l ++ r).getLast?, BoundaryOk (l ++ r) first last snapshot := by
  intro first hfirst last hlast
  rw [List.head?_append_of_ne_nil _ hl] at hfirst
  have hend := List.getLast?_eq_some_getLast hl
  exact boundaryOk_append (h first hfirst _ hend)
    (hlr.le_getLast hlast (List.mem_append_left _ (List.mem_of_getLast? hend)))

/-- A repair has checked what it writes. -/
theorem Repaired.valid
    (hvalid : validateLogEntriesForSnapshot codec s.retainedLogEntries s.latestSnapshot = .ok ())
    (hrep : Repaired codec s s' commit (e :: tail)) :
    validateLogEntriesForSnapshot codec s'.retainedLogEntries s'.latestSnapshot = .ok () := by
  obtain ⟨hpasses, hjoin, hboundary⟩ := validateRepairedLogSuffix_eq_ok (hrep.checked e rfl)
  have hlog := (validateLogEntriesForSnapshot_eq_ok.1 hvalid).1
  rw [← List.take_append_drop (retainedEntryLowerBound s.retainedLogEntries e.index) s.retainedLogEntries] at hlog
  rw [hrep.snapshot, hrep.retained e rfl]
  have hall := passes_append.2 ⟨(passes_append.1 hlog).1, hpasses, hjoin⟩
  obtain ⟨f, hf⟩ := hall.contiguous_from
  refine validateLogEntriesForSnapshot_eq_ok.2 ⟨hall, ?_⟩
  cases hkept : s.retainedLogEntries.take (retainedEntryLowerBound s.retainedLogEntries e.index) with
  | nil =>
    rw [hkept] at hboundary
    exact validateSnapshotLogBoundary_eq_ok.1 hboundary
  | cons a kept =>
    rw [hkept] at hboundary hf
    exact boundary_append (List.cons_ne_nil _ _) (ordered_of_contiguous hf)
      (validateSnapshotLogBoundary_eq_ok.1 hboundary)

/-- The boundary behind an append. -/
theorem Whole.boundary_extend (h : Whole codec s)
    (hvalid : validateLogEntriesForSnapshot codec s.retainedLogEntries s.latestSnapshot = .ok ())
    (hes : Contiguous (s.lastIndex + 1) (e :: tail)) (hroom : e.index ≤ u64Max) :
    ∀ first ∈ (s.retainedLogEntries ++ e :: tail).head?, ∀ last ∈ (s.retainedLogEntries ++ e :: tail).getLast?,
      BoundaryOk (s.retainedLogEntries ++ e :: tail) first last s.latestSnapshot := by
  have hindex : e.index = s.lastIndex + 1 := hes.1
  cases hnil : s.retainedLogEntries with
  | nil =>
    intro first hfirst last hlast
    simp only [List.nil_append, List.head?_cons, Option.mem_some_iff] at hfirst
    subst hfirst
    have hend := (ordered_of_contiguous hes).le_getLast hlast (List.mem_cons_self (a := e) (l := tail))
    have hsnap := h.lastIndex_of_nil hnil
    rw [snapshotIndex] at hsnap
    cases hs : s.latestSnapshot with
    | none =>
      simp only [hs, Option.map_none, Option.getD_none] at hsnap
      show e.index = 1
      omega
    | some m =>
      simp only [hs, Option.map_some, Option.getD_some] at hsnap
      refine ⟨by omega, by omega, by omega, fun hle => ?_⟩
      omega
  | cons a l =>
    rw [← hnil]
    have hne : s.retainedLogEntries ≠ [] := by simp [hnil]
    refine boundary_append hne (List.pairwise_append.2 ⟨h.ordered, ordered_of_contiguous hes, fun a ha b hb => ?_⟩)
      (validateLogEntriesForSnapshot_eq_ok.1 hvalid).2
    obtain ⟨k, hk⟩ := List.mem_iff_getElem?.1 hb
    have := hes.get hk
    have := h.index_le ha
    omega

/-- Behind what was compared, an appended entry is of no older term than the last
one; the check of the previous entry says the same where nothing was compared. -/
theorem Whole.lastTerm_le (h : Whole codec s) (hsplit : Split codec s prev prevTerm entries before (e :: tail))
    (hprev : s.termAtIndex prev = some prevTerm) (hbehind : e.index = s.lastIndex + 1)
    (hsnap : s.snapshotIndex < s.lastIndex) : s.lastTerm ≤ e.term := by
  obtain ⟨b, hb, -⟩ := h.retained hsnap (Nat.le_refl _)
  obtain ⟨last, hlast⟩ : ∃ last, s.retainedLogEntries.getLast? = some last :=
    ⟨_, List.getLast?_eq_some_getLast (List.ne_nil_of_mem hb)⟩
  obtain ⟨hlastIndex, hlastTerm⟩ := h.lastIndex_of_getLast hlast
  rcases List.eq_nil_or_concat before with rfl | ⟨init, a, rfl⟩
  · -- nothing was compared, so the previous entry is the last one
    have hstart : e.index = max prev s.snapshotIndex + 1 := hsplit.contiguous.1
    have hprevLast : prev = last.index := by omega
    rw [hprevLast, h.termAtIndex_last hlast, Option.some.injEq] at hprev
    have hne : entries ≠ [] := List.ne_nil_of_mem hsplit.head_mem.1
    have hfirst := hsplit.shaped.first _ (List.head?_eq_some_head hne)
    rw [hsplit.unique (List.head_mem hne) hsplit.head_mem.1 (by omega)] at hfirst
    omega
  · -- the entry before it was compared with the last one
    rw [List.concat_eq_append] at hsplit
    obtain ⟨c, hc, hci, hct, -⟩ := hsplit.matched a (by simp)
    have hjoin := (passes_append.1 hsplit.passes).2.2 a (by simp) e rfl
    have hcl : c = last := by
      refine h.unique hc (List.mem_of_getLast? hlast) ?_
      have := hjoin.index
      omega
    rw [hlastTerm, ← hcl, hct]
    exact hjoin.term

/-- Behind an append the log passes its checks exactly if the first new entry may
stand behind the last old one. -/
theorem Appended.valid_iff (h : Whole codec s)
    (hvalid : validateLogEntriesForSnapshot codec s.retainedLogEntries s.latestSnapshot = .ok ())
    (hsplit : Split codec s prev prevTerm entries before (e :: tail)) (hbehind : e.index = s.lastIndex + 1)
    (happ : Appended s s' commit (e :: tail)) :
    validateLogEntriesForSnapshot codec s'.retainedLogEntries s'.latestSnapshot = .ok () ↔
      (s.retainedLogEntries ≠ [] → s.lastTerm ≤ e.term) := by
  have hpass := (passes_append.1 hsplit.passes).2.1
  have hrun : Contiguous (s.lastIndex + 1) (e :: tail) := hbehind ▸ hpass.contiguous
  have hroom := hsplit.shaped.passes.le_u64Max hsplit.shaped.room e hsplit.head_mem.1
  have hlog := (validateLogEntriesForSnapshot_eq_ok.1 hvalid).1
  rw [happ.snapshot, happ.retained, validateLogEntriesForSnapshot_eq_ok, passes_append]
  constructor
  · intro ⟨⟨_, _, hjoin⟩, _⟩ hne
    have hlast := List.getLast?_eq_some_getLast hne
    rw [(h.lastIndex_of_getLast hlast).2]
    exact (hjoin _ hlast e rfl).term
  · intro hterm
    refine ⟨⟨hlog, hpass, fun last hlast b hb => ?_⟩, h.boundary_extend hvalid hrun hroom⟩
    cases hb
    obtain ⟨hlastIndex, hlastTerm⟩ := h.lastIndex_of_getLast hlast
    refine ⟨by omega, by omega, ?_⟩
    rw [← hlastTerm]
    exact hterm (List.ne_nil_of_mem (List.mem_of_getLast? hlast))

/-- **An accepted append keeps the log restartable exactly if the terms fit.** For
every store with exact caches whose log passes the checks of a restart, and every
request that is accepted, the log behind it passes them again if and only if no
entry of an older term comes right behind a snapshot whose own entry is the last
one retained. Only the append path leaves that out: the entry at the snapshot's
index is skipped without a look, and what is appended is not compared with the
end of the log. -/
theorem appendEntriesFromLeader_restartable [DecidableEq κ] (hexact : Exact codec s)
    (hvalid : validateLogEntriesForSnapshot codec s.retainedLogEntries s.latestSnapshot = .ok ())
    (hok : s.appendEntriesFromLeader codec io prev prevTerm leaderTerm commit entries = (.ok report, s'))
    (hsuccess : report.success = true) :
    validateLogEntriesForSnapshot codec s'.retainedLogEntries s'.latestSnapshot = .ok () ↔ TermsFit s entries := by
  have h := Whole.of_valid hexact hvalid
  obtain ⟨_, hshape, -⟩ := attempt_eq_ok hok
  have hshaped := validateAppendEntriesShape_shaped hshape
  rw [appendEntriesFromLeader_eq hshape] at hok
  cases hconflict : s.appendEntriesPrevConflict prev prevTerm with
  | some report' =>
    simp only [hconflict, Prod.mk.injEq, Except.ok.injEq] at hok
    rw [← hok.1, prevConflict_success hconflict] at hsuccess
    cases hsuccess
  | none =>
    simp only [hconflict] at hok
    obtain ⟨hprev, hterm⟩ := prevConflict_eq_none.1 hconflict
    obtain ⟨-, before, rest, hsplit, hbefore, htook⟩ := h.takeIncoming_ok hshaped hprev hok
    have hsplit : Split codec s prev prevTerm entries before rest := ⟨hshaped, hsplit, hbefore⟩
    cases htook with
    | nothing same =>
      rw [same]
      refine iff_of_true hvalid fun hend _ e he hindex => ?_
      obtain ⟨a, ha, hai, -⟩ := hsplit.matched e ((hsplit.mem.2 ⟨he, by omega⟩).resolve_right (by simp))
      have := h.index_le ha
      omega
    | @repaired e tail conflict result =>
      refine iff_of_true (result.valid hvalid) fun hend _ _ _ _ => ?_
      obtain ⟨a, ha, hai, -⟩ := conflict
      have := h.index_le ha
      have := (hsplit.head_mem).2
      omega
    | @appended e tail behind result =>
      rw [result.valid_iff h hvalid hsplit behind]
      have hreach := h.snapshotIndex_le
      constructor
      · intro hterm _ hne b hb hbi
        rw [hsplit.unique hb hsplit.head_mem.1 (by omega)]
        exact hterm hne
      · intro hfit hne
        by_cases hend : s.lastIndex = s.snapshotIndex
        · exact hfit hend hne e hsplit.head_mem.1 behind
        · exact h.lastTerm_le hsplit hterm behind (by omega)

theorem appendEntriesFromLeader_restartable_next :
    validateLogEntriesForSnapshot Sample.identities
        (Sample.trailing.appendEntriesFromLeader Sample.identities {} 0 0 3 0 Sample.next).2.retainedLogEntries
        (Sample.trailing.appendEntriesFromLeader Sample.identities {} 0 0 3 0 Sample.next).2.latestSnapshot = .ok () := by
  have hok : Sample.trailing.appendEntriesFromLeader Sample.identities {} 0 0 3 0 Sample.next =
      (.ok { success := true, matchIndex := 2, conflictIndex := none, conflictTerm := none, appendedEntries := 1 },
        (Sample.trailing.appendEntriesFromLeader Sample.identities {} 0 0 3 0 Sample.next).2) :=
    Prod.ext (by decide +kernel) rfl
  have hvalid : validateLogEntriesForSnapshot Sample.identities Sample.trailing.retainedLogEntries
      Sample.trailing.latestSnapshot = .ok () := by decide +kernel
  have hfits : ∀ e ∈ Sample.next, e.index = Sample.trailing.lastIndex + 1 → Sample.trailing.lastTerm ≤ e.term := by
    decide +kernel
  exact (appendEntriesFromLeader_restartable Sample.trailing_whole.toExact hvalid hok rfl).2 fun _ _ => hfits

/-- A leader's log of term 1, where the follower's snapshot ends with term 3. -/
def Sample.older : List (LogEntry RequestIdentity) := [⟨1, 1, 0, ⟨"b", "g"⟩⟩, ⟨2, 1, 0, ⟨"c", "h"⟩⟩]

/-- The entry at the snapshot's index is skipped, the one behind it is appended, and
the terms of the log go down from 3 to 1. -/
theorem appendEntriesFromLeader_breaks : Exact Sample.identities Sample.trailing ∧
    validateLogEntriesForSnapshot Sample.identities Sample.trailing.retainedLogEntries
      Sample.trailing.latestSnapshot = .ok () ∧
    (Sample.trailing.appendEntriesFromLeader Sample.identities {} 0 0 3 0 Sample.older).1 =
      .ok { success := true, matchIndex := 2, conflictIndex := none, conflictTerm := none, appendedEntries := 1 } ∧
    validateLogEntriesForSnapshot Sample.identities
      (Sample.trailing.appendEntriesFromLeader Sample.identities {} 0 0 3 0 Sample.older).2.retainedLogEntries
      (Sample.trailing.appendEntriesFromLeader Sample.identities {} 0 0 3 0 Sample.older).2.latestSnapshot =
        .error (.invalidLog "entry index 2 has term 1 older than previous term 3") :=
  ⟨Sample.trailing_whole.toExact, by decide +kernel, by decide +kernel, by decide +kernel⟩

end RaftLogStore

end LiveMutex.Raft
