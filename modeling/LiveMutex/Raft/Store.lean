/-
The operations of the log store that read or write the log: what a follower
reports on an AppendEntries request and how it takes the entries in, a leader's
own append, the range that is applied, and the switch to a snapshot.

Every function here runs under the store's one lock, so it is a step of its own;
what may happen between two of them is the subject of the modules above. The
checks of the commands themselves (`validate_raft_command`, the fingerprints of
client requests) look at the payload only and are left out: they turn a request
away before anything is written.
-/
import LiveMutex.Raft.Log

namespace LiveMutex.Raft

variable {α : Type}

inductive BrokerRaftError where
  | invalidAppendEntries (message : String)
  | invalidLog (message : String)
  | noSnapshot
  | compactionAheadOfSnapshot (throughIndex snapshotIndex : Nat)
  | idempotencyKeyConflict (requestId : String)
  | snapshotChecksumMissing (index : Nat)
  | snapshotChecksumMismatch (index : Nat) (expected actual : String)
  | json
  | io (message : String)
  | rpc (message : String)
  deriving Repr, DecidableEq

/-- A follower's answer to an AppendEntries request. The counts of appended,
rewritten and truncated entries are telemetry and are left out. -/
structure RaftAppendReport where
  success : Bool
  matchIndex : Nat
  conflictIndex : Option Nat
  conflictTerm : Option Nat
  deriving Repr, DecidableEq

/-- What a leader knows about a peer's log. -/
structure RaftPeerProgress where
  nextIndex : Nat
  matchIndex : Nat
  deriving Repr, DecidableEq

namespace RaftLogState

/-! ## The checks on a log

`validate_log_entries_for_snapshot` is run on every log read from disk and on
every log that is installed. -/

def validatePersistedLogEntries : Option (RaftLogEntry α) → List (RaftLogEntry α) → Except BrokerRaftError Unit
  | _, [] => .ok ()
  | previous, entry :: entries =>
    if entry.index = 0 then .error (.invalidLog "entry index must be >= 1")
    else if entry.term = 0 then .error (.invalidLog s!"entry index {entry.index} has term 0")
    else
      match previous with
      | none => validatePersistedLogEntries (some entry) entries
      | some prev =>
        if entry.index ≠ prev.index + 1 then .error (.invalidLog
          s!"entry index {entry.index} is not contiguous after index {prev.index}; expected {prev.index + 1}")
        else if entry.term < prev.term then .error (.invalidLog
          s!"entry index {entry.index} has term {entry.term} older than previous term {prev.term}")
        else validatePersistedLogEntries (some entry) entries

def validateSnapshotLogBoundary (entries : List (RaftLogEntry α)) (latestSnapshot : Option RaftSnapshotMetadata) :
    Except BrokerRaftError Unit :=
  match entries.head?, entries.getLast?, latestSnapshot with
  | some first, some _, none =>
    if first.index ≠ 1 then .error (.invalidLog
      s!"log starts at index {first.index} without a snapshot covering indexes before it")
    else .ok ()
  | some first, some last, some snapshot =>
    if last.index < snapshot.lastIncludedIndex then .error (.invalidLog
      s!"retained log ends at index {last.index} before snapshot index {snapshot.lastIncludedIndex}")
    else if snapshot.lastIncludedIndex + 1 < first.index then .error (.invalidLog
      s!"retained log starts at index {first.index} but snapshot only covers through {snapshot.lastIncludedIndex}; missing index {snapshot.lastIncludedIndex + 1}")
    else if first.index ≤ snapshot.lastIncludedIndex then
      match entries.find? (·.index == snapshot.lastIncludedIndex) with
      | none => .error (.invalidLog
          s!"retained log crosses snapshot index {snapshot.lastIncludedIndex} but does not contain it")
      | some entry =>
        if entry.term ≠ snapshot.lastIncludedTerm then .error (.invalidLog
          s!"retained log term {entry.term} at snapshot index {snapshot.lastIncludedIndex} does not match snapshot term {snapshot.lastIncludedTerm}")
        else .ok ()
    else .ok ()
  | _, _, _ => .ok ()

/-- The checks before a suffix of the log is replaced. -/
def validateRepairedLogSuffix (kept suffix : List (RaftLogEntry α)) (latestSnapshot : Option RaftSnapshotMetadata) :
    Except BrokerRaftError Unit := do
  validatePersistedLogEntries none suffix
  validateSnapshotLogBoundary (if kept.isEmpty then suffix else kept) latestSnapshot
  match kept.getLast?, suffix.head? with
  | some prev, some firstSuffix =>
    if firstSuffix.index ≠ prev.index + 1 then .error (.invalidLog
      s!"entry index {firstSuffix.index} is not contiguous after retained prefix index {prev.index}; expected {prev.index + 1}")
    else if firstSuffix.term < prev.term then .error (.invalidLog
      s!"entry index {firstSuffix.index} has term {firstSuffix.term} older than retained prefix term {prev.term}")
    else .ok ()
  | _, _ => .ok ()

/-! ## The previous-entry check -/

/-- `append_entries_prev_conflict`: the report of a request whose previous entry
the log does not have, with a hint where the leader should try next. -/
def appendEntriesPrevConflict (s : RaftLogState α) (prevLogIndex prevLogTerm : Nat) : Option RaftAppendReport :=
  if s.lastIndex < prevLogIndex then
    some ⟨false, s.lastIndex, some (s.lastIndex + 1), none⟩
  else
    match s.termAtIndex prevLogIndex with
    | some term =>
      if term = prevLogTerm then none
      else some ⟨false, min s.lastIndex (prevLogIndex - 1), s.firstIndexForTerm term, some term⟩
    | none => some ⟨false, min s.lastIndex (prevLogIndex - 1), some (s.snapshotIndex + 1), none⟩

theorem prevConflict_behind {s : RaftLogState α} {prev term : Nat} (h : s.lastIndex < prev) :
    s.appendEntriesPrevConflict prev term = some ⟨false, s.lastIndex, some (s.lastIndex + 1), none⟩ :=
  if_pos h

theorem prevConflict_unknown {s : RaftLogState α} {prev term : Nat} (h : prev ≤ s.lastIndex)
    (ht : s.termAtIndex prev = none) : s.appendEntriesPrevConflict prev term =
      some ⟨false, min s.lastIndex (prev - 1), some (s.snapshotIndex + 1), none⟩ := by
  simp [appendEntriesPrevConflict, ht, show ¬s.lastIndex < prev by omega]

theorem prevConflict_known {s : RaftLogState α} {prev term t : Nat} (h : prev ≤ s.lastIndex)
    (ht : s.termAtIndex prev = some t) : s.appendEntriesPrevConflict prev term =
      if t = term then none
      else some ⟨false, min s.lastIndex (prev - 1), s.firstIndexForTerm t, some t⟩ := by
  simp [appendEntriesPrevConflict, ht, show ¬s.lastIndex < prev by omega]

/-! ## Taking entries in -/

/-- The entries of a request: contiguous behind the previous one, with terms that
do not go down and do not pass the leader's. -/
def validateEntries (prevLogIndex leaderTerm : Nat) :
    Nat → Nat → List (RaftLogEntry α) → Except BrokerRaftError Unit
  | _, _, [] => .ok ()
  | expected, prevTerm, entry :: entries =>
    if entry.index = 0 then .error (.invalidAppendEntries "entry index must be >= 1")
    else if entry.index ≠ expected then .error (.invalidAppendEntries
      s!"entry index {entry.index} is not contiguous after prevLogIndex {prevLogIndex}; expected {expected}")
    else if entry.term = 0 then .error (.invalidAppendEntries s!"entry index {entry.index} has term 0")
    else if entry.term < prevTerm then .error (.invalidAppendEntries
      s!"entry index {entry.index} has term {entry.term} older than previous term {prevTerm}")
    else if leaderTerm < entry.term then .error (.invalidAppendEntries
      s!"entry index {entry.index} has term {entry.term} greater than leader term {leaderTerm}")
    else validateEntries prevLogIndex leaderTerm (entry.index + 1) entry.term entries

def validateAppendEntriesShape (prevLogIndex prevLogTerm leaderTerm : Nat) (entries : List (RaftLogEntry α)) :
    Except BrokerRaftError Unit :=
  if leaderTerm = 0 then .error (.invalidAppendEntries "leader term must be >= 1")
  else if prevLogIndex = 0 ∧ prevLogTerm ≠ 0 then
    .error (.invalidAppendEntries "prevLogTerm must be 0 when prevLogIndex is 0")
  else if 0 < prevLogIndex ∧ prevLogTerm = 0 then
    .error (.invalidAppendEntries "prevLogTerm must be >= 1 when prevLogIndex is nonzero")
  else if leaderTerm < prevLogTerm then
    .error (.invalidAppendEntries "prevLogTerm cannot exceed leader term")
  else validateEntries prevLogIndex leaderTerm (prevLogIndex + 1) prevLogTerm entries

/-- What the loop over the incoming entries finds. -/
inductive IncomingScan (α : Type) where
  /-- Every entry is in the log already. -/
  | present
  /-- From here on the log has other entries, or has lost its own. -/
  | rewrite (rest : List (RaftLogEntry α))
  /-- From here on the log has nothing. -/
  | append (rest : List (RaftLogEntry α))
  deriving Repr, DecidableEq

def scanIncoming [DecidableEq α] (s : RaftLogState α) : List (RaftLogEntry α) → Except BrokerRaftError (IncomingScan α)
  | [] => .ok .present
  | entry :: entries =>
    match retainedEntryAt s.retainedLogEntries entry.index with
    | some localEntry =>
      if localEntry.term = entry.term then
        if localEntry.command = entry.command then scanIncoming s entries
        else .error (.invalidAppendEntries
          s!"entry index {entry.index} term {entry.term} violates Raft log matching property: command differs from local retained entry")
      else .ok (.rewrite (entry :: entries))
    | none => .ok (if entry.index ≤ s.lastIndex then .rewrite (entry :: entries) else .append (entry :: entries))

/-- `append_entries_from_leader`: the previous-entry check once more, then the
entries behind the snapshot are compared one by one, and the log is cut and
continued where it first differs, but never at or below what is committed. -/
def appendEntriesFromLeader [DecidableEq α] (s : RaftLogState α)
    (prevLogIndex prevLogTerm leaderTerm effectiveCommitIndex : Nat) (entries : List (RaftLogEntry α)) :
    Except BrokerRaftError (RaftAppendReport × RaftLogState α) := do
  validateAppendEntriesShape prevLogIndex prevLogTerm leaderTerm entries
  match s.appendEntriesPrevConflict prevLogIndex prevLogTerm with
  | some report => return (report, s)
  | none =>
    let incoming := entries.dropWhile fun entry => !(s.snapshotIndex < entry.index && prevLogIndex < entry.index)
    let report : RaftAppendReport := ⟨true, (incoming.getLast?.map (·.index)).getD prevLogIndex, none, none⟩
    match ← s.scanIncoming incoming with
    | .present => return (report, s)
    | .rewrite rest =>
      let rewriteIndex := (rest.head?.map (·.index)).getD 0
      if rewriteIndex ≤ effectiveCommitIndex then
        throw (.invalidAppendEntries s!"refusing to rewrite committed follower log entry at index {rewriteIndex}; local commitIndex is {effectiveCommitIndex}")
      let kept := s.retainedLogEntries.take (retainedEntryLowerBound s.retainedLogEntries rewriteIndex)
      validateRepairedLogSuffix kept rest s.latestSnapshot
      return (report, { s with retainedLogEntries := kept ++ rest })
    | .append rest =>
      let appendIndex := (rest.head?.map (·.index)).getD 0
      if appendIndex ≤ effectiveCommitIndex then
        throw (.invalidAppendEntries s!"refusing to fill missing committed follower log entry at index {appendIndex}; local commitIndex is {effectiveCommitIndex}")
      return (report, { s with retainedLogEntries := s.retainedLogEntries ++ rest })

/-! ## A leader's own entries -/

/-- The entries a batch of commands becomes, from an index on. -/
def numbered (term : Nat) : Nat → List α → List (RaftLogEntry α)
  | _, [] => []
  | index, command :: commands => ⟨index, term, command⟩ :: numbered term (index + 1) commands

def appendBatch (s : RaftLogState α) (term : Nat) (commands : List α) : Except BrokerRaftError (RaftLogState α) :=
  if commands = [] then .ok s
  else if term = 0 then .error (.invalidAppendEntries "local append term must be >= 1")
  else if term < s.lastTerm then .error (.invalidAppendEntries
    s!"local append term {term} is older than last persisted term {s.lastTerm}")
  else .ok { s with retainedLogEntries := s.retainedLogEntries ++ numbered term (s.lastIndex + 1) commands }

/-! ## The entries to apply -/

def entriesRangeCached (entries : List (RaftLogEntry α)) (startIndex endIndex : Nat) : List (RaftLogEntry α) :=
  if endIndex < startIndex then []
  else (entries.take (retainedEntryUpperBound entries endIndex)).drop
    (retainedEntryLowerBound entries (max startIndex 1))

/-- How far a run of entries reaches without a gap. -/
def coveredThrough : Nat → List (RaftLogEntry α) → Nat
  | covered, [] => covered
  | covered, entry :: entries =>
    if entry.index ≤ covered then coveredThrough covered entries
    else if entry.index ≠ covered + 1 then covered
    else coveredThrough entry.index entries

/-- `entries_range`: the retained entries of a range. What the store's snapshot
covers counts as present, whether or not it is among them. -/
def entriesRange (s : RaftLogState α) (startIndex endIndex : Nat) :
    Except BrokerRaftError (List (RaftLogEntry α)) :=
  if endIndex < startIndex then .ok []
  else
    let entries := entriesRangeCached s.retainedLogEntries startIndex endIndex
    let covered := if max startIndex 1 ≤ s.snapshotIndex then s.snapshotIndex else max startIndex 1 - 1
    if coveredThrough covered entries < endIndex then
      .error (.invalidLog s!"log is missing committed entry range {startIndex}..={endIndex}")
    else .ok entries

/-! ## Snapshots -/

/-- `install_snapshot_from_leader`: the store is switched to a leader's snapshot,
unless it has one that reaches as far. The entries behind it stay if the log has
the snapshot's last entry. -/
def installSnapshotFromLeader (s : RaftLogState α) (lastIncludedIndex lastIncludedTerm : Nat) :
    Except BrokerRaftError (RaftSnapshotMetadata × RaftLogState α) :=
  match s.latestSnapshot.filter (lastIncludedIndex ≤ ·.lastIncludedIndex) with
  | some existing =>
    if existing.lastIncludedIndex = lastIncludedIndex ∧ existing.lastIncludedTerm ≠ lastIncludedTerm then
      .error (.invalidLog
        s!"local snapshot term {existing.lastIncludedTerm} at index {existing.lastIncludedIndex} conflicts with InstallSnapshot term {lastIncludedTerm}")
    else .ok (existing, s)
  | none =>
    let retained :=
      if s.termAtIndex lastIncludedIndex = some lastIncludedTerm then
        s.retainedLogEntries.drop (retainedEntryUpperBound s.retainedLogEntries lastIncludedIndex)
      else []
    let metadata : RaftSnapshotMetadata := ⟨lastIncludedIndex, lastIncludedTerm⟩
    do
      validatePersistedLogEntries none retained
      validateSnapshotLogBoundary retained (some metadata)
      return (metadata, ⟨some metadata, retained⟩)

/-- `write_snapshot`: a node's own snapshot. One at the index of the latest is
only checked against it. -/
def writeSnapshot (s : RaftLogState α) (lastIncludedIndex lastIncludedTerm : Nat) :
    Except BrokerRaftError (RaftLogState α) :=
  match s.latestSnapshot.filter (lastIncludedIndex ≤ ·.lastIncludedIndex) with
  | some existing =>
    if lastIncludedIndex < existing.lastIncludedIndex then .error (.invalidLog
      s!"refusing to replace latest snapshot at index {existing.lastIncludedIndex} with older snapshot index {lastIncludedIndex}")
    else if lastIncludedTerm ≠ existing.lastIncludedTerm then .error (.invalidLog
      s!"refusing to replace latest snapshot term {existing.lastIncludedTerm} at index {existing.lastIncludedIndex} with term {lastIncludedTerm}")
    else .ok s
  | none =>
    match (s.termAtIndex lastIncludedIndex).filter (· ≠ lastIncludedTerm) with
    | some retainedTerm => .error (.invalidLog
        s!"refusing to write snapshot term {lastIncludedTerm} at index {lastIncludedIndex}; retained log has term {retainedTerm}")
    | none =>
      if s.lastIndex < lastIncludedIndex ∧ !s.retainedLogEntries.isEmpty then .error (.invalidLog
        s!"refusing to write local snapshot at future index {lastIncludedIndex}; retained log only reaches index {s.lastIndex}")
      else .ok { s with latestSnapshot := some ⟨lastIncludedIndex, lastIncludedTerm⟩ }

/-- `compact_through`: entries that the snapshot covers are dropped. -/
def compactThrough (s : RaftLogState α) (throughIndex : Nat) : Except BrokerRaftError (RaftLogState α) :=
  match s.latestSnapshot with
  | none => .error .noSnapshot
  | some snapshot =>
    if snapshot.lastIncludedIndex < throughIndex then
      .error (.compactionAheadOfSnapshot throughIndex snapshot.lastIncludedIndex)
    else .ok { s with retainedLogEntries :=
        s.retainedLogEntries.drop (retainedEntryUpperBound s.retainedLogEntries throughIndex) }

end RaftLogState

end LiveMutex.Raft
