/-
The log store as it stands in memory: the retained entries, the latest snapshot,
and what is kept beside them so that no question needs a pass over the log. The
end of the log, the term of every index, the ends of every term, the length of
every line of the log file and the first use of every request id are updated by
each operation in a way of its own.

The operations run under the store's lock, one at a time. What the files answer
is an argument (`StoreIo`), so an operation can be read for every outcome of its
writes; how commands are checked and how entries and snapshots are written as
JSON is a parameter (`StoreCodec`). Telemetry is left out.
-/
import LiveMutex.Raft.ResponseCache

namespace LiveMutex.Raft

/-- The payload of an entry: its command, and when it was appended. -/
structure Stamped (κ : Type) where
  createdAtMs : Nat
  command : κ
  deriving Repr, DecidableEq

abbrev LogEntry (κ : Type) := RaftLogEntry (Stamped κ)

structure StoredSnapshotMetadata extends RaftSnapshotMetadata where
  payloadSha256 : Option String
  deriving Repr, DecidableEq

/-- What the store asks about commands (`κ`), entries and snapshot payloads (`π`). -/
structure StoreCodec (κ π : Type) where
  validateRaftCommand : κ → Except BrokerRaftError Unit
  /-- The id and the fingerprint of a `ClientRequestWithIdentity`; other commands have none. -/
  requestIdentity : κ → Option RequestIdentity
  serializedLogEntryLen : LogEntry κ → Nat
  clientResponsesFromSnapshotPayload : π → Except BrokerRaftError (List ClientResponseSnapshotEntry)
  snapshotPayloadSha256 : π → String

/-- What the clock and the files answer during one operation. -/
structure StoreIo (κ π : Type) where
  unixMs : Nat := 0
  /-- The writes of the operation, up to the first that fails. -/
  write : Except BrokerRaftError Unit := .ok ()
  /-- The lines of the log file, should it be read. -/
  readLog : Except BrokerRaftError (List (LogEntry κ)) := .ok []
  /-- The rewrite of a log file that was read. -/
  rewriteLog : Except BrokerRaftError Unit := .ok ()
  readSnapshotFile : Except BrokerRaftError (Option (StoredSnapshotMetadata × π)) := .ok none

/-- The error's text (`thiserror`). -/
def BrokerRaftError.display : BrokerRaftError → String
  | .invalidAppendEntries message => s!"invalid raft append entries: {message}"
  | .invalidLog message => s!"invalid persisted raft log: {message}"
  | .noSnapshot => "cannot compact raft log before a snapshot has been written"
  | .compactionAheadOfSnapshot throughIndex snapshotIndex =>
    s!"cannot compact through index {throughIndex}; latest snapshot only covers {snapshotIndex}"
  | .idempotencyKeyConflict requestId => s!"raft request id `{requestId}` was reused with a different request payload"
  | .snapshotChecksumMissing index => s!"raft snapshot at index {index} is missing payload checksum"
  | .snapshotChecksumMismatch index expected actual =>
    s!"raft snapshot payload checksum mismatch at index {index}; expected={expected} actual={actual}"
  | .json => "raft storage JSON error"
  | .io message => s!"raft storage I/O error: {message}"
  | .rpc message => s!"raft RPC error: {message}"

/-- `u64::checked_add` -/
def checkedAdd (a b : Nat) : Option Nat :=
  if a + b ≤ u64Max then some (a + b) else none

/-! ## The ends of the terms -/

/-- `term_by_index`, `first_index_by_term` and `last_index_by_term`. -/
structure TermIndexes where
  termByIndex : OrdMap Nat Nat := ∅
  firstIndexByTerm : OrdMap Nat Nat := ∅
  lastIndexByTerm : OrdMap Nat Nat := ∅

namespace TermIndexes

variable {α : Type}

def push (t : TermIndexes) (entry : RaftLogEntry α) : TermIndexes where
  termByIndex := t.termByIndex.insert entry.index entry.term
  firstIndexByTerm :=
    if t.firstIndexByTerm.contains entry.term then t.firstIndexByTerm
    else t.firstIndexByTerm.insert entry.term entry.index
  lastIndexByTerm := t.lastIndexByTerm.insert entry.term entry.index

def extend (t : TermIndexes) (entries : List (RaftLogEntry α)) : TermIndexes := entries.foldl push t

end TermIndexes

def termIndexesFromEntries {α : Type} (entries : List (RaftLogEntry α)) : TermIndexes :=
  TermIndexes.extend {} entries

/-! ## Request identities -/

structure RetainedRequestIdentityFingerprint where
  requestFingerprint : String
  firstIndex : Nat
  deriving Repr, DecidableEq

section Identity

variable {κ π : Type} (codec : StoreCodec κ π)

/-- `add_client_request_identity_entries`; the map is read on success only. -/
def addClientRequestIdentityEntries :
    OrdMap String String → List (LogEntry κ) → Except BrokerRaftError (OrdMap String String)
  | fingerprints, [] => .ok fingerprints
  | fingerprints, entry :: entries =>
    match codec.requestIdentity entry.command.command with
    | none => addClientRequestIdentityEntries fingerprints entries
    | some identity =>
      match fingerprints[identity.requestId]? with
      | some previous =>
        if previous ≠ identity.requestFingerprint then .error (.invalidLog
          s!"entry index {entry.index} reuses request id `{identity.requestId}` with a different request fingerprint")
        else addClientRequestIdentityEntries fingerprints entries
      | none =>
        addClientRequestIdentityEntries (fingerprints.insert identity.requestId identity.requestFingerprint) entries

def validateClientRequestIdentityEntries (fingerprints : OrdMap String String) (entries : List (LogEntry κ)) :
    Except BrokerRaftError Unit :=
  (addClientRequestIdentityEntries codec fingerprints entries).map fun _ => ()

/-- `add_retained_request_identity_entries`; the map is written in place, so it has
what came before the entry that is refused. -/
def addRetainedRequestIdentityEntries :
    OrdMap String RetainedRequestIdentityFingerprint → List (LogEntry κ) →
      Except BrokerRaftError Unit × OrdMap String RetainedRequestIdentityFingerprint
  | fingerprints, [] => (.ok (), fingerprints)
  | fingerprints, entry :: entries =>
    match codec.requestIdentity entry.command.command with
    | none => addRetainedRequestIdentityEntries fingerprints entries
    | some identity =>
      match fingerprints[identity.requestId]? with
      | some previous =>
        if previous.requestFingerprint ≠ identity.requestFingerprint then
          (.error (.invalidLog
            s!"entry index {entry.index} reuses request id `{identity.requestId}` with a different request fingerprint"),
            fingerprints)
        else
          addRetainedRequestIdentityEntries (fingerprints.insert identity.requestId
            { previous with firstIndex := min previous.firstIndex entry.index }) entries
      | none =>
        addRetainedRequestIdentityEntries
          (fingerprints.insert identity.requestId ⟨identity.requestFingerprint, entry.index⟩) entries

/-- The request ids of the entries behind an index, each with its first use. -/
def retainedRequestIdentityFingerprintsAfter (entries : List (LogEntry κ)) (retainedAfterIndex : Nat) :
    Except BrokerRaftError (OrdMap String RetainedRequestIdentityFingerprint) :=
  let retainedStart := retainedEntryUpperBound entries retainedAfterIndex
  match addRetainedRequestIdentityEntries codec ∅ (entries.drop retainedStart) with
  | (.ok _, fingerprints) => .ok fingerprints
  | (.error err, _) => .error err

def truncateRetainedRequestIdentityFingerprints
    (fingerprints : OrdMap String RetainedRequestIdentityFingerprint) (retainedPrefixLastIndex : Nat) :
    OrdMap String RetainedRequestIdentityFingerprint :=
  if retainedPrefixLastIndex = 0 then ∅
  else fingerprints.filter fun _ fingerprint => fingerprint.firstIndex ≤ retainedPrefixLastIndex

def entriesHaveClientRequestIdentities (entries : List (LogEntry κ)) : Bool :=
  entries.any fun entry => (codec.requestIdentity entry.command.command).isSome

/-- The loop of `validate_repaired_request_identity_context`, behind what the suffix
has used so far. -/
def validateSuffixIdentities (snapshotClientResponseFingerprints : OrdMap String String)
    (retainedRequestFingerprints : OrdMap String RetainedRequestIdentityFingerprint) (retainedPrefixLastIndex : Nat) :
    OrdMap String String → List (LogEntry κ) → Except BrokerRaftError Unit
  | _, [] => .ok ()
  | incoming, entry :: entries =>
    match codec.requestIdentity entry.command.command with
    | none =>
      validateSuffixIdentities snapshotClientResponseFingerprints retainedRequestFingerprints retainedPrefixLastIndex
        incoming entries
    | some identity =>
      if snapshotClientResponseFingerprints[identity.requestId]?.any (· ≠ identity.requestFingerprint) then
        .error (.invalidAppendEntries
          s!"entry index {entry.index} reuses request id `{identity.requestId}` with a different request fingerprint from snapshotted idempotency context")
      else if (retainedRequestFingerprints[identity.requestId]?.filter fun fingerprint =>
          0 < retainedPrefixLastIndex && fingerprint.firstIndex ≤ retainedPrefixLastIndex).any
            (·.requestFingerprint ≠ identity.requestFingerprint) then
        .error (.invalidAppendEntries
          s!"entry index {entry.index} reuses request id `{identity.requestId}` with a different request fingerprint from retained log context")
      else if incoming[identity.requestId]?.any (· ≠ identity.requestFingerprint) then
        .error (.invalidAppendEntries
          s!"entry index {entry.index} reuses request id `{identity.requestId}` with a different request fingerprint inside append entries")
      else
        validateSuffixIdentities snapshotClientResponseFingerprints retainedRequestFingerprints retainedPrefixLastIndex
          (incoming.insert identity.requestId identity.requestFingerprint) entries

def validateRepairedRequestIdentityContext (snapshotClientResponseFingerprints : OrdMap String String)
    (retainedRequestFingerprints : OrdMap String RetainedRequestIdentityFingerprint) (retainedPrefixLastIndex : Nat)
    (suffix : List (LogEntry κ)) : Except BrokerRaftError Unit :=
  if !entriesHaveClientRequestIdentities codec suffix then .ok ()
  else validateSuffixIdentities codec snapshotClientResponseFingerprints retainedRequestFingerprints
    retainedPrefixLastIndex ∅ suffix

end Identity

/-! ## The checks on a log -/

section Checks

variable {κ π : Type} (codec : StoreCodec κ π)

def validateCommandOf (wrap : String → BrokerRaftError) (entry : LogEntry κ) : Except BrokerRaftError Unit :=
  match codec.validateRaftCommand entry.command.command with
  | .error err => .error (wrap s!"entry index {entry.index} has invalid command: {err.display}")
  | .ok _ => .ok ()

/-- The body of the loop of `validate_persisted_log_entries`. -/
def validatePersistedLogEntry (previous : Option (LogEntry κ)) (entry : LogEntry κ) : Except BrokerRaftError Unit :=
  if entry.index = 0 then .error (.invalidLog "entry index must be >= 1")
  else if entry.term = 0 then .error (.invalidLog s!"entry index {entry.index} has term 0")
  else
    match previous with
    | none => validateCommandOf codec .invalidLog entry
    | some prev =>
      match checkedAdd prev.index 1 with
      | none => .error (.invalidLog s!"entry index {prev.index} cannot be followed by another entry")
      | some expectedIndex =>
        if entry.index ≠ expectedIndex then .error (.invalidLog
          s!"entry index {entry.index} is not contiguous after index {prev.index}; expected {expectedIndex}")
        else if entry.term < prev.term then .error (.invalidLog
          s!"entry index {entry.index} has term {entry.term} older than previous term {prev.term}")
        else validateCommandOf codec .invalidLog entry

def validatePersistedLogEntries : Option (LogEntry κ) → List (LogEntry κ) → Except BrokerRaftError Unit
  | _, [] => .ok ()
  | previous, entry :: entries =>
    (validatePersistedLogEntry codec previous entry).bind fun _ => validatePersistedLogEntries (some entry) entries

def validateSnapshotLogBoundary (entries : List (LogEntry κ)) (latestSnapshot : Option StoredSnapshotMetadata) :
    Except BrokerRaftError Unit :=
  match entries.head?, entries.getLast?, latestSnapshot with
  | some first, some _, none =>
    if first.index ≠ 1 then .error (.invalidLog
      s!"log starts at index {first.index} without a snapshot covering indexes before it")
    else .ok ()
  | some first, some last, some snapshot =>
    if last.index < snapshot.lastIncludedIndex then .error (.invalidLog
      s!"retained log ends at index {last.index} before snapshot index {snapshot.lastIncludedIndex}")
    else
      match checkedAdd snapshot.lastIncludedIndex 1 with
      | none => .error (.invalidLog
          s!"snapshot index {snapshot.lastIncludedIndex} cannot be followed by retained log entries")
      | some maxFirstAfterSnapshot =>
        if maxFirstAfterSnapshot < first.index then .error (.invalidLog
          s!"retained log starts at index {first.index} but snapshot only covers through {snapshot.lastIncludedIndex}; missing index {maxFirstAfterSnapshot}")
        else if first.index ≤ snapshot.lastIncludedIndex then
          match entries.find? (·.index == snapshot.lastIncludedIndex) with
          | none => .error (.invalidLog
              s!"retained log crosses snapshot index {snapshot.lastIncludedIndex} but does not contain it")
          | some snapshotEntry =>
            if snapshotEntry.term ≠ snapshot.lastIncludedTerm then .error (.invalidLog
              s!"retained log term {snapshotEntry.term} at snapshot index {snapshot.lastIncludedIndex} does not match snapshot term {snapshot.lastIncludedTerm}")
            else .ok ()
        else .ok ()
  | _, _, _ => .ok ()

def validateLogEntriesForSnapshot (entries : List (LogEntry κ)) (latestSnapshot : Option StoredSnapshotMetadata) :
    Except BrokerRaftError Unit :=
  (validatePersistedLogEntries codec none entries).bind fun _ => validateSnapshotLogBoundary entries latestSnapshot

/-- Whether a suffix goes on where the kept entries end. -/
def validateSuffixJoin (kept suffix : List (LogEntry κ)) : Except BrokerRaftError Unit :=
  match kept.getLast?, suffix.head? with
  | some prev, some firstSuffix =>
    match checkedAdd prev.index 1 with
    | none => .error (.invalidLog s!"entry index {prev.index} cannot be followed by another entry")
    | some expectedIndex =>
      if firstSuffix.index ≠ expectedIndex then .error (.invalidLog
        s!"entry index {firstSuffix.index} is not contiguous after retained prefix index {prev.index}; expected {expectedIndex}")
      else if firstSuffix.term < prev.term then .error (.invalidLog
        s!"entry index {firstSuffix.index} has term {firstSuffix.term} older than retained prefix term {prev.term}")
      else .ok ()
  | _, _ => .ok ()

/-- The checks before a suffix of the log is replaced. -/
def validateRepairedLogSuffix (retainedEntries : List (LogEntry κ)) (retainedPrefixLen : Nat)
    (suffix : List (LogEntry κ)) (latestSnapshot : Option StoredSnapshotMetadata) : Except BrokerRaftError Unit :=
  if retainedEntries.length < retainedPrefixLen then .error (.invalidLog
    s!"retained log prefix length {retainedPrefixLen} exceeds retained entry count {retainedEntries.length}")
  else
    let kept := retainedEntries.take retainedPrefixLen
    (validatePersistedLogEntries codec none suffix).bind fun _ =>
      (validateSnapshotLogBoundary (if kept.isEmpty then suffix else kept) latestSnapshot).bind fun _ =>
        validateSuffixJoin kept suffix

/-- The body of the loop of `validate_append_entries_shape`. -/
def validateIncomingEntry (prevLogIndex leaderTerm expectedIndex prevTerm : Nat) (entry : LogEntry κ) :
    Except BrokerRaftError Unit :=
  if entry.index = 0 then .error (.invalidAppendEntries "entry index must be >= 1")
  else if entry.index ≠ expectedIndex then .error (.invalidAppendEntries
    s!"entry index {entry.index} is not contiguous after prevLogIndex {prevLogIndex}; expected {expectedIndex}")
  else if entry.term = 0 then .error (.invalidAppendEntries s!"entry index {entry.index} has term 0")
  else if entry.term < prevTerm then .error (.invalidAppendEntries
    s!"entry index {entry.index} has term {entry.term} older than previous term {prevTerm}")
  else if leaderTerm < entry.term then .error (.invalidAppendEntries
    s!"entry index {entry.index} has term {entry.term} greater than leader term {leaderTerm}")
  else validateCommandOf codec .invalidAppendEntries entry

def validateIncomingEntries (prevLogIndex leaderTerm : Nat) :
    Nat → Nat → List (LogEntry κ) → Except BrokerRaftError Unit
  | _, _, [] => .ok ()
  | expectedIndex, prevTerm, entry :: entries =>
    (validateIncomingEntry codec prevLogIndex leaderTerm expectedIndex prevTerm entry).bind fun _ =>
      -- the index behind the last entry is not asked for
      if entries.isEmpty then .ok ()
      else
        match checkedAdd entry.index 1 with
        | none => .error (.invalidAppendEntries
            s!"entry index {entry.index} cannot be followed by another entry without overflowing u64")
        | some next => validateIncomingEntries prevLogIndex leaderTerm next entry.term entries

def validateAppendEntriesShape (prevLogIndex prevLogTerm leaderTerm : Nat) (entries : List (LogEntry κ)) :
    Except BrokerRaftError Unit :=
  if leaderTerm = 0 then .error (.invalidAppendEntries "leader term must be >= 1")
  else if prevLogIndex = 0 ∧ prevLogTerm ≠ 0 then
    .error (.invalidAppendEntries "prevLogTerm must be 0 when prevLogIndex is 0")
  else if 0 < prevLogIndex ∧ prevLogTerm = 0 then
    .error (.invalidAppendEntries "prevLogTerm must be >= 1 when prevLogIndex is nonzero")
  else if leaderTerm < prevLogTerm then
    .error (.invalidAppendEntries "prevLogTerm cannot exceed leader term")
  else
    match checkedAdd prevLogIndex 1 with
    | none =>
      if entries.isEmpty then .ok ()
      else .error (.invalidAppendEntries "prevLogIndex is too large for non-empty entries")
    | some expectedIndex => validateIncomingEntries codec prevLogIndex leaderTerm expectedIndex prevLogTerm entries

end Checks

/-! ## The lengths of the lines -/

section Lengths

variable {κ π : Type} (codec : StoreCodec κ π)

def serializedLogEntryLens (entries : List (LogEntry κ)) : List Nat :=
  entries.map codec.serializedLogEntryLen

def validateRetainedLogEntryBytesLen (retainedLen retainedSizesLen : Nat) : Except BrokerRaftError Unit :=
  if retainedLen ≠ retainedSizesLen then .error (.invalidLog
    s!"retained log byte-size cache has {retainedSizesLen} entries for {retainedLen} retained log entries")
  else .ok ()

def addLineLen (sum len : Nat) : Except BrokerRaftError Nat :=
  match checkedAdd len 1 with
  | none => .error (.invalidLog "retained log entry line length overflowed u64")
  | some lineLen =>
    match checkedAdd sum lineLen with
    | none => .error (.invalidLog "retained log prefix byte length overflowed u64")
    | some total => .ok total

def retainedPrefixFileLen (entryBytes : List Nat) (prefixLen : Nat) : Except BrokerRaftError Nat :=
  if entryBytes.length < prefixLen then .error (.invalidLog
    s!"retained log prefix length {prefixLen} exceeds byte-size cache length {entryBytes.length}")
  else (entryBytes.take prefixLen).foldlM addLineLen 0

def retainedLogPrefixFileLen (entries : List (LogEntry κ)) (entryBytes : List Nat) (prefixLen : Nat) :
    Except BrokerRaftError Nat :=
  (validateRetainedLogEntryBytesLen entries.length entryBytes.length).bind fun _ =>
    retainedPrefixFileLen entryBytes prefixLen

def retainedLogEntryBytesSuffix (entries : List (LogEntry κ)) (entryBytes : List Nat) (suffixStart : Nat) :
    Except BrokerRaftError (List Nat) :=
  (validateRetainedLogEntryBytesLen entries.length entryBytes.length).bind fun _ =>
    if entries.length < suffixStart then .error (.invalidLog
      s!"retained log suffix start {suffixStart} exceeds retained log entries length {entries.length}")
    else .ok (entryBytes.drop suffixStart)

end Lengths

/-! ## The store -/

/-- How far the log was found old enough to compact, and what for. -/
structure RetainedAgeCompactionCache where
  maxAgeMs : Nat
  oldestRetainedMs : Nat
  maxThroughIndex : Nat
  eligibleIndex : Option Nat
  deriving Repr, DecidableEq

structure RaftLogStore (κ : Type) where
  startupTrailingLogEntries : Nat := 0
  lastIndex : Nat := 0
  lastTerm : Nat := 0
  /-- `hard_state.commit_index` -/
  commitIndex : Nat := 0
  latestSnapshot : Option StoredSnapshotMetadata := none
  snapshotClientResponseFingerprints : OrdMap String String := ∅
  retainedRequestFingerprints : OrdMap String RetainedRequestIdentityFingerprint := ∅
  retainedLogEntries : List (LogEntry κ) := []
  retainedLogEntryBytes : List Nat := []
  termIndexes : TermIndexes := {}
  ageCompactionCache : Option RetainedAgeCompactionCache := none

/-- An operation's answer, and the store behind it. -/
abbrev Outcome (κ ρ : Type) := Except BrokerRaftError ρ × RaftLogStore κ

structure AppendReport extends RaftAppendReport where
  appendedEntries : Nat := 0
  rewrittenEntries : Nat := 0
  truncatedEntries : Nat := 0
  deriving Repr, DecidableEq

structure RaftCompactionReport where
  compactedThroughIndex : Nat
  compactedEntries : Nat
  compactedBytes : Nat
  retainedEntries : Nat
  retainedBytes : Nat
  deriving Repr, DecidableEq

namespace RaftLogStore

variable {κ π : Type} (codec : StoreCodec κ π) (io : StoreIo κ π) (s : RaftLogStore κ)

/-- The `?` of the source: an error leaves the store as it is by then. -/
def attempt {β ρ : Type} (result : Except BrokerRaftError β) (next : β → Outcome κ ρ) : Outcome κ ρ :=
  match result with
  | .error err => (.error err, s)
  | .ok value => next value

def snapshotIndex : Nat := (s.latestSnapshot.map (·.lastIncludedIndex)).getD 0

def termAtIndex (index : Nat) : Option Nat :=
  if index = 0 then some 0
  else s.termIndexes.termByIndex[index]?.or
    ((s.latestSnapshot.filter (·.lastIncludedIndex == index)).map (·.lastIncludedTerm))

def firstIndexForTerm (term : Nat) : Option Nat :=
  s.termIndexes.firstIndexByTerm[term]?.or
    ((s.latestSnapshot.filter (·.lastIncludedTerm == term)).map (·.lastIncludedIndex))

/-- The last index and term of the retained entries, or of the snapshot. -/
def endOf (retained : List (LogEntry κ)) (latestSnapshot : Option StoredSnapshotMetadata) : Nat × Nat :=
  ((retained.getLast?.map fun entry => (entry.index, entry.term)).or
    (latestSnapshot.map fun snapshot => (snapshot.lastIncludedIndex, snapshot.lastIncludedTerm))).getD (0, 0)

/-! ### Reading the log back -/

/-- `replace_retained_log_state`; the snapshot is the store's own. -/
def replaceRetainedLogState (retained : List (LogEntry κ)) (retainedSizes : List Nat) :
    Except BrokerRaftError (RaftLogStore κ) :=
  (validateRetainedLogEntryBytesLen retained.length retainedSizes.length).bind fun _ =>
    (retainedRequestIdentityFingerprintsAfter codec retained s.snapshotIndex).map fun fingerprints =>
      { s with
        lastIndex := (endOf retained s.latestSnapshot).1
        lastTerm := (endOf retained s.latestSnapshot).2
        retainedLogEntries := retained
        retainedLogEntryBytes := retainedSizes
        retainedRequestFingerprints := fingerprints
        termIndexes := termIndexesFromEntries retained
        ageCompactionCache := none }

/-- `reconcile_persisted_log_with_snapshot`: the entries to retain, and whether the
file has to be rewritten. -/
def reconcilePersistedLogWithSnapshot (entries : List (LogEntry κ)) (latestSnapshot : Option StoredSnapshotMetadata)
    (startupTrailingLogEntries : Nat) : Except BrokerRaftError (List (LogEntry κ) × Bool) :=
  match latestSnapshot, entries.head?, entries.getLast? with
  | none, _, _ => (validateSnapshotLogBoundary entries none).map fun _ => (entries, false)
  | some snapshot, some first, some last =>
    if last.index < snapshot.lastIncludedIndex then .ok ([], true)
    else
      match checkedAdd snapshot.lastIncludedIndex 1 with
      | none => .error (.invalidLog
          s!"snapshot index {snapshot.lastIncludedIndex} cannot be followed by retained log entries")
      | some maxFirstAfterSnapshot =>
        if maxFirstAfterSnapshot < first.index then .error (.invalidLog
          s!"retained log starts at index {first.index} but snapshot only covers through {snapshot.lastIncludedIndex}; missing index {maxFirstAfterSnapshot}")
        else if first.index ≤ snapshot.lastIncludedIndex then
          if (retainedEntryAt entries snapshot.lastIncludedIndex).any (·.term == snapshot.lastIncludedTerm) then
            let retainedFloor := saturatingAdd (snapshot.lastIncludedIndex - startupTrailingLogEntries) 1
            let suffixStart := retainedEntryLowerBound entries retainedFloor
            let retained := entries.drop suffixStart
            (validateSnapshotLogBoundary retained (some snapshot)).map fun _ => (retained, decide (0 < suffixStart))
          else .ok ([], true)
        else (validateSnapshotLogBoundary entries (some snapshot)).map fun _ => (entries, false)
  | some _, _, _ => .ok (entries, false)

def readLogEntries : Except BrokerRaftError (List (LogEntry κ)) :=
  io.readLog.bind fun entries => (validatePersistedLogEntries codec none entries).map fun _ => entries

/-- The log file's entries, as far as they are to be retained. -/
def readRetained (latestSnapshot : Option StoredSnapshotMetadata) (startupTrailingLogEntries : Nat) :
    Except BrokerRaftError (List (LogEntry κ)) :=
  (readLogEntries codec io).bind fun persisted =>
    (reconcilePersistedLogWithSnapshot persisted latestSnapshot startupTrailingLogEntries).bind fun reconciled =>
      if reconciled.2 then io.rewriteLog.map fun _ => reconciled.1 else .ok reconciled.1

def reloadRetainedLogFromDiskLocked : Except BrokerRaftError (RaftLogStore κ) :=
  (readRetained codec io s.latestSnapshot s.startupTrailingLogEntries).bind fun retained =>
    s.replaceRetainedLogState codec retained (serializedLogEntryLens codec retained)

/-- The request ids a snapshot payload answers for. -/
def snapshotFingerprints (payload : π) : Except BrokerRaftError (OrdMap String String) :=
  (codec.clientResponsesFromSnapshotPayload payload).bind (validateSnapshotClientResponseEntries ∅)

def snapshotFileFingerprints : Option (StoredSnapshotMetadata × π) → Except BrokerRaftError (OrdMap String String)
  | some (_, payload) => snapshotFingerprints codec payload
  | none => .ok ∅

/-- `open_with_sync_policy_and_telemetry`, with the commit index of the hard state. -/
def openWith (startupTrailingLogEntries commitIndex : Nat) : Except BrokerRaftError (RaftLogStore κ) :=
  io.readSnapshotFile.bind fun file =>
    (snapshotFileFingerprints codec file).bind fun snapshotClientResponseFingerprints =>
    let latestSnapshot := file.map (·.1)
    (readRetained codec io latestSnapshot startupTrailingLogEntries).bind fun retained =>
      replaceRetainedLogState codec
        { startupTrailingLogEntries, commitIndex, latestSnapshot, snapshotClientResponseFingerprints }
        retained (serializedLogEntryLens codec retained)

/-! ### Appends -/

/-- What both append paths write: the entries behind the retained ones, and every
cache but the request ids. -/
def extendRetained (entries : List (LogEntry κ)) : RaftLogStore κ :=
  { s with
    lastIndex := (entries.getLast?.map (·.index)).getD s.lastIndex
    lastTerm := (entries.getLast?.map (·.term)).getD s.lastTerm
    retainedLogEntries := s.retainedLogEntries ++ entries
    retainedLogEntryBytes := s.retainedLogEntryBytes ++ serializedLogEntryLens codec entries
    termIndexes := s.termIndexes.extend entries }

/-- The entries of a batch: the `offset`-th stands `offset + 1` behind the end of the log. -/
def batchEntries (lastIndex term createdAtMs : Nat) : Nat → List κ → List (LogEntry κ)
  | _, [] => []
  | offset, command :: commands =>
    ⟨saturatingAdd lastIndex (offset + 1), term, createdAtMs, command⟩ ::
      batchEntries lastIndex term createdAtMs (offset + 1) commands

def appendBatch (term : Nat) (commands : List κ) : Outcome κ (List (LogEntry κ)) :=
  if commands.isEmpty then (.ok [], s)
  else
    s.attempt (commands.forM codec.validateRaftCommand) fun _ =>
    if term = 0 then (.error (.invalidAppendEntries "local append term must be >= 1"), s)
    else if term < s.lastTerm then
      (.error (.invalidAppendEntries s!"local append term {term} is older than last persisted term {s.lastTerm}"), s)
    else
      let entries := batchEntries s.lastIndex term io.unixMs 0 commands
      s.attempt (validateRepairedRequestIdentityContext codec s.snapshotClientResponseFingerprints
        s.retainedRequestFingerprints s.lastIndex entries) fun _ =>
      s.attempt io.write fun _ =>
      let added := addRetainedRequestIdentityEntries codec s.retainedRequestFingerprints entries
      let s' := { s.extendRetained codec entries with retainedRequestFingerprints := added.2 }
      s'.attempt added.1 fun _ => (.ok entries, s')

/-! ### Entries from the leader -/

def appendEntriesPrevConflict (prevLogIndex prevLogTerm : Nat) : Option AppendReport :=
  if s.lastIndex < prevLogIndex then
    some { success := false, matchIndex := s.lastIndex, conflictIndex := some (saturatingAdd s.lastIndex 1)
           conflictTerm := none }
  else
    match s.termAtIndex prevLogIndex with
    | some term =>
      if term = prevLogTerm then none
      else some { success := false, matchIndex := min s.lastIndex (prevLogIndex - 1)
                  conflictIndex := s.firstIndexForTerm term, conflictTerm := some term }
    | none => some { success := false, matchIndex := min s.lastIndex (prevLogIndex - 1)
                     conflictIndex := some (saturatingAdd s.snapshotIndex 1), conflictTerm := none }

/-- The entries of a request that are looked at: those behind the snapshot. -/
def incomingOf (prevLogIndex : Nat) (entries : List (LogEntry κ)) : List (LogEntry κ) :=
  entries.dropWhile fun entry => !(s.snapshotIndex < entry.index && prevLogIndex < entry.index)

/-- The loop over the incoming entries. -/
def scanIncoming [DecidableEq κ] : List (LogEntry κ) → Except BrokerRaftError (RaftLogState.IncomingScan (Stamped κ))
  | [] => .ok .present
  | entry :: entries =>
    match s.termIndexes.termByIndex[entry.index]? with
    | some localTerm =>
      if localTerm = entry.term then
        match retainedEntryAt s.retainedLogEntries entry.index with
        | none => .error (.invalidLog
            s!"retained log term index contains entry {entry.index} but retained entries do not")
        | some localEntry =>
          if localEntry.command.command ≠ entry.command.command then .error (.invalidAppendEntries
            s!"entry index {entry.index} term {entry.term} violates Raft log matching property: command differs from local retained entry")
          else scanIncoming entries
      else .ok (.rewrite (entry :: entries))
    | none => .ok (if entry.index ≤ s.lastIndex then .rewrite (entry :: entries) else .append (entry :: entries))

/-- An error of a repair whose file was written: the log is read back first. -/
def failReloaded {ρ : Type} (what : String) (err : BrokerRaftError) : Outcome κ ρ :=
  match s.reloadRetainedLogFromDiskLocked codec io with
  | .error reloadErr => (.error (.rpc
      s!"{what} failed: {err.display}; failed to reload retained log from disk: {reloadErr.display}"), s)
  | .ok s' => (.error err, s')

/-- The truncate-and-rewrite path: the log is cut before the first entry of `rest`. -/
def rewriteFrom (effectiveCommitIndex : Nat) (report : AppendReport) (rest : List (LogEntry κ)) :
    Outcome κ AppendReport :=
  let rewriteIndex := (rest.head?.map (·.index)).getD 0
  if rewriteIndex ≤ effectiveCommitIndex then
    (.error (.invalidAppendEntries
      s!"refusing to rewrite committed follower log entry at index {rewriteIndex}; local commitIndex is {effectiveCommitIndex}"), s)
  else
    let retainedPrefixLen := retainedEntryLowerBound s.retainedLogEntries rewriteIndex
    s.attempt (retainedLogPrefixFileLen s.retainedLogEntries s.retainedLogEntryBytes retainedPrefixLen) fun _ =>
    s.attempt (validateRepairedLogSuffix codec s.retainedLogEntries retainedPrefixLen rest s.latestSnapshot) fun _ =>
    let kept := s.retainedLogEntries.take retainedPrefixLen
    let retainedPrefixLastIndex := (kept.getLast?.map (·.index)).getD 0
    s.attempt (validateRepairedRequestIdentityContext codec s.snapshotClientResponseFingerprints
      s.retainedRequestFingerprints retainedPrefixLastIndex rest) fun _ =>
    match io.write with
    | .error err => s.failReloaded codec io "raft conflict repair write" err
    | .ok _ =>
      let added := addRetainedRequestIdentityEntries codec
        (truncateRetainedRequestIdentityFingerprints s.retainedRequestFingerprints retainedPrefixLastIndex) rest
      let s' : RaftLogStore κ := { s with
        retainedLogEntries := kept ++ rest
        retainedLogEntryBytes := s.retainedLogEntryBytes.take retainedPrefixLen ++ serializedLogEntryLens codec rest
        ageCompactionCache := none
        retainedRequestFingerprints := added.2 }
      match added.1 with
      | .error err => s'.failReloaded codec io "raft conflict repair cache update" err
      | .ok _ =>
        (.ok { report with
            rewrittenEntries := rest.length
            truncatedEntries := s.retainedLogEntries.length - retainedPrefixLen },
          { s' with
            lastIndex := (endOf s'.retainedLogEntries s.latestSnapshot).1
            lastTerm := (endOf s'.retainedLogEntries s.latestSnapshot).2
            termIndexes := termIndexesFromEntries s'.retainedLogEntries })

/-- The append-only path: `rest` goes behind the end of the log. -/
def appendOnly (effectiveCommitIndex : Nat) (report : AppendReport) (rest : List (LogEntry κ)) :
    Outcome κ AppendReport :=
  let appendIndex := (rest.head?.map (·.index)).getD 0
  if appendIndex ≤ effectiveCommitIndex then
    (.error (.invalidAppendEntries
      s!"refusing to fill missing committed follower log entry at index {appendIndex}; local commitIndex is {effectiveCommitIndex}"), s)
  else
    s.attempt (validateRepairedRequestIdentityContext codec s.snapshotClientResponseFingerprints
      s.retainedRequestFingerprints s.lastIndex rest) fun _ =>
    s.attempt io.write fun _ =>
    let added := addRetainedRequestIdentityEntries codec s.retainedRequestFingerprints rest
    let s' := { s.extendRetained codec rest with retainedRequestFingerprints := added.2 }
    match added.1 with
    | .error err => s'.failReloaded codec io "raft append-only cache update" err
    | .ok _ => (.ok { report with appendedEntries := rest.length }, s')

/-- `append_entries_from_leader`: the previous-entry check is written out once more
here, then the entries behind the snapshot are compared one by one. -/
def appendEntriesFromLeader [DecidableEq κ] (prevLogIndex prevLogTerm leaderTerm localCommitIndex : Nat)
    (entries : List (LogEntry κ)) : Outcome κ AppendReport :=
  s.attempt (validateAppendEntriesShape codec prevLogIndex prevLogTerm leaderTerm entries) fun _ =>
  let effectiveCommitIndex := max localCommitIndex s.commitIndex
  if s.lastIndex < prevLogIndex then
    (.ok { success := false, matchIndex := s.lastIndex, conflictIndex := some (saturatingAdd s.lastIndex 1)
           conflictTerm := none }, s)
  else
    match s.termAtIndex prevLogIndex with
    | none =>
      (.ok { success := false, matchIndex := min s.lastIndex (prevLogIndex - 1)
             conflictIndex := some (saturatingAdd s.snapshotIndex 1), conflictTerm := none }, s)
    | some term =>
      if term ≠ prevLogTerm then
        (.ok { success := false, matchIndex := min s.lastIndex (prevLogIndex - 1)
               conflictIndex := s.firstIndexForTerm term, conflictTerm := some term }, s)
      else
        let incoming := s.incomingOf prevLogIndex entries
        let report : AppendReport :=
          { success := true, matchIndex := (incoming.getLast?.map (·.index)).getD prevLogIndex
            conflictIndex := none, conflictTerm := none }
        s.attempt (s.scanIncoming incoming) fun scan =>
        match scan with
        | .present => (.ok report, s)
        | .rewrite rest => s.rewriteFrom codec io effectiveCommitIndex report rest
        | .append rest => s.appendOnly codec io effectiveCommitIndex report rest

/-! ### Snapshots -/

def validateSnapshotClientResponsesAgainstRetainedSuffix (snapshotIndex : Nat)
    (snapshotClientResponseFingerprints : OrdMap String String) : Except BrokerRaftError Unit :=
  validateClientRequestIdentityEntries codec snapshotClientResponseFingerprints
    (s.retainedLogEntries.drop (retainedEntryUpperBound s.retainedLogEntries snapshotIndex))

/-- The snapshot in memory is switched, and the request ids are collected behind it. -/
def withSnapshot {ρ : Type} (metadata : StoredSnapshotMetadata)
    (snapshotClientResponseFingerprints : OrdMap String String) (next : RaftLogStore κ → Outcome κ ρ) : Outcome κ ρ :=
  let s' := { s with latestSnapshot := some metadata, snapshotClientResponseFingerprints }
  s'.attempt (retainedRequestIdentityFingerprintsAfter codec s'.retainedLogEntries s'.snapshotIndex) fun fingerprints =>
    next { s' with retainedRequestFingerprints := fingerprints }

/-- `str::eq_ignore_ascii_case` -/
def eqIgnoreAsciiCase (a b : String) : Bool := a.toLower == b.toLower

/-- The snapshot file of metadata without a checksum, if it is the one they describe. -/
def readDescribedSnapshot (existing : StoredSnapshotMetadata) (missing changed : String) : Except BrokerRaftError π :=
  io.readSnapshotFile.bind fun file =>
    match file with
    | none => .error (.invalidLog missing)
    | some (metadata, payload) =>
      if metadata.lastIncludedIndex ≠ existing.lastIncludedIndex ∨
          metadata.lastIncludedTerm ≠ existing.lastIncludedTerm then .error (.invalidLog changed)
      else .ok payload

/-- `write_snapshot` at the index of the latest snapshot: the same snapshot once more. -/
def rewriteSnapshot (existing : StoredSnapshotMetadata) (lastIncludedTerm : Nat) (payloadSha256 : String)
    (fingerprints : OrdMap String String) : Outcome κ StoredSnapshotMetadata :=
  if lastIncludedTerm ≠ existing.lastIncludedTerm then
    (.error (.invalidLog
      s!"refusing to replace latest snapshot term {existing.lastIncludedTerm} at index {existing.lastIncludedIndex} with term {lastIncludedTerm}"), s)
  else
    match existing.payloadSha256 with
    | some existingChecksum =>
      if !eqIgnoreAsciiCase existingChecksum payloadSha256 then
        (.error (.invalidLog
          s!"refusing to replace latest snapshot payload at index {existing.lastIncludedIndex} with a different checksum"), s)
      else
        s.attempt (s.validateSnapshotClientResponsesAgainstRetainedSuffix codec existing.lastIncludedIndex fingerprints)
          fun _ =>
        s.withSnapshot codec existing fingerprints fun s' => (.ok existing, s')
    | none =>
      s.attempt (readDescribedSnapshot io existing
        s!"latest snapshot metadata at index {existing.lastIncludedIndex} has no checksum and snapshot file is missing"
        s!"latest snapshot metadata changed while validating local snapshot write at index {existing.lastIncludedIndex}")
        fun payload =>
      if !eqIgnoreAsciiCase (codec.snapshotPayloadSha256 payload) payloadSha256 then
        (.error (.invalidLog
          s!"refusing to treat checksumless latest snapshot payload at index {existing.lastIncludedIndex} as idempotent with a different checksum"), s)
      else
        let metadata := { existing with payloadSha256 := some payloadSha256 }
        s.attempt (s.validateSnapshotClientResponsesAgainstRetainedSuffix codec metadata.lastIncludedIndex fingerprints)
          fun _ =>
        s.attempt io.write fun _ =>
        s.withSnapshot codec metadata fingerprints fun s' => (.ok metadata, s')

/-- `write_snapshot` -/
def writeSnapshot (lastIncludedIndex lastIncludedTerm : Nat) (payload : π) : Outcome κ StoredSnapshotMetadata :=
  s.attempt (snapshotFingerprints codec payload) fun fingerprints =>
  let payloadSha256 := codec.snapshotPayloadSha256 payload
  match s.latestSnapshot.filter (lastIncludedIndex ≤ ·.lastIncludedIndex) with
  | some existing =>
    if lastIncludedIndex < existing.lastIncludedIndex then
      (.error (.invalidLog
        s!"refusing to replace latest snapshot at index {existing.lastIncludedIndex} with older snapshot index {lastIncludedIndex}"), s)
    else s.rewriteSnapshot codec io existing lastIncludedTerm payloadSha256 fingerprints
  | none =>
    match (s.termAtIndex lastIncludedIndex).filter (· ≠ lastIncludedTerm) with
    | some retainedTerm =>
      (.error (.invalidLog
        s!"refusing to write snapshot term {lastIncludedTerm} at index {lastIncludedIndex}; retained log has term {retainedTerm}"), s)
    | none =>
      if s.lastIndex < lastIncludedIndex && !s.retainedLogEntries.isEmpty then
        (.error (.invalidLog
          s!"refusing to write local snapshot at future index {lastIncludedIndex}; retained log only reaches index {s.lastIndex}"), s)
      else
        s.attempt (s.validateSnapshotClientResponsesAgainstRetainedSuffix codec lastIncludedIndex fingerprints) fun _ =>
        let metadata : StoredSnapshotMetadata := ⟨⟨lastIncludedIndex, lastIncludedTerm⟩, some payloadSha256⟩
        s.attempt io.write fun _ =>
        s.withSnapshot codec metadata fingerprints fun s' =>
          (.ok metadata,
            if s'.lastIndex ≤ lastIncludedIndex then
              { s' with lastIndex := lastIncludedIndex, lastTerm := lastIncludedTerm }
            else s')

def verifySnapshotPayloadChecksum (index : Nat) (payload : π) (expected : Option String) :
    Except BrokerRaftError String :=
  match expected with
  | none => .error (.snapshotChecksumMissing index)
  | some expected =>
    let actual := codec.snapshotPayloadSha256 payload
    if !eqIgnoreAsciiCase actual expected then .error (.snapshotChecksumMismatch index expected actual) else .ok actual

/-- The checksum of the latest snapshot, from its metadata or from the file. -/
def existingPayloadSha256 (existing : StoredSnapshotMetadata) : Except BrokerRaftError String :=
  match existing.payloadSha256 with
  | some checksum => .ok checksum
  | none => (readDescribedSnapshot io existing
      s!"local snapshot metadata at index {existing.lastIncludedIndex} has no checksum and snapshot file is missing"
      s!"local snapshot metadata changed while validating InstallSnapshot at index {existing.lastIncludedIndex}").map
      codec.snapshotPayloadSha256

def validateExistingSnapshotMatchesInstall (existing : StoredSnapshotMetadata) (incomingTerm : Nat)
    (incomingPayloadSha256 : String) : Except BrokerRaftError Unit :=
  if existing.lastIncludedTerm ≠ incomingTerm then .error (.invalidLog
    s!"local snapshot term {existing.lastIncludedTerm} at index {existing.lastIncludedIndex} conflicts with InstallSnapshot term {incomingTerm}")
  else
    (existingPayloadSha256 codec io existing).bind fun existingPayloadSha256 =>
    if !eqIgnoreAsciiCase existingPayloadSha256 incomingPayloadSha256 then .error (.invalidLog
      s!"local snapshot payload checksum at index {existing.lastIncludedIndex} conflicts with InstallSnapshot payload checksum")
    else .ok ()

/-- `repair_retained_log_entry_byte_cache_if_needed` -/
def repairRetainedLogEntryByteCache : RaftLogStore κ :=
  { s with retainedLogEntryBytes := serializedLogEntryLens codec s.retainedLogEntries }

/-- The entries behind an installed snapshot, if the log has its last entry. -/
def retainedBehind (lastIncludedIndex lastIncludedTerm : Nat) :
    Except BrokerRaftError (List (LogEntry κ) × List Nat) :=
  if s.termAtIndex lastIncludedIndex = some lastIncludedTerm then
    let suffixStart := retainedEntryUpperBound s.retainedLogEntries lastIncludedIndex
    (retainedLogEntryBytesSuffix s.retainedLogEntries s.retainedLogEntryBytes suffixStart).map fun sizes =>
      (s.retainedLogEntries.drop suffixStart, sizes)
  else .ok ([], [])

/-- `install_snapshot_from_leader` -/
def installSnapshotFromLeader (lastIncludedIndex lastIncludedTerm : Nat) (payloadSha256 : Option String) (payload : π) :
    Outcome κ StoredSnapshotMetadata :=
  s.attempt (verifySnapshotPayloadChecksum codec lastIncludedIndex payload payloadSha256) fun verifiedPayloadSha256 =>
  s.attempt (snapshotFingerprints codec payload) fun fingerprints =>
  match s.latestSnapshot.filter (lastIncludedIndex ≤ ·.lastIncludedIndex) with
  | some existing =>
    if existing.lastIncludedIndex = lastIncludedIndex then
      s.attempt (validateExistingSnapshotMatchesInstall codec io existing lastIncludedTerm verifiedPayloadSha256) fun _ =>
      s.attempt (s.validateSnapshotClientResponsesAgainstRetainedSuffix codec existing.lastIncludedIndex fingerprints)
        fun _ =>
      s.withSnapshot codec existing fingerprints fun s' => (.ok existing, s')
    else (.ok existing, s)
  | none =>
    let s := s.repairRetainedLogEntryByteCache codec
    s.attempt (s.retainedBehind lastIncludedIndex lastIncludedTerm) fun retained =>
    match validateClientRequestIdentityEntries codec fingerprints retained.1 with
    | .error err => (.error (.invalidLog
        s!"installed snapshot client response cache conflicts with retained log suffix: {err.display}"), s)
    | .ok _ =>
      let metadata : StoredSnapshotMetadata := ⟨⟨lastIncludedIndex, lastIncludedTerm⟩, some verifiedPayloadSha256⟩
      s.attempt (validateLogEntriesForSnapshot codec retained.1 (some metadata)) fun _ =>
      s.attempt io.write fun _ =>
      let s' := { s with latestSnapshot := some metadata, snapshotClientResponseFingerprints := fingerprints }
      s'.attempt (s'.replaceRetainedLogState codec retained.1 retained.2) fun s'' => (.ok metadata, s'')

/-- `compact_through` -/
def compactThrough (throughIndex : Nat) : Outcome κ RaftCompactionReport :=
  match s.latestSnapshot with
  | none => (.error .noSnapshot, s)
  | some snapshot =>
    if snapshot.lastIncludedIndex < throughIndex then
      (.error (.compactionAheadOfSnapshot throughIndex snapshot.lastIncludedIndex), s)
    else
      let s := s.repairRetainedLogEntryByteCache codec
      let suffixStart := retainedEntryUpperBound s.retainedLogEntries throughIndex
      s.attempt (retainedLogPrefixFileLen s.retainedLogEntries s.retainedLogEntryBytes suffixStart)
        fun compactedBytes =>
      if suffixStart = 0 then
        s.attempt (retainedPrefixFileLen s.retainedLogEntryBytes s.retainedLogEntryBytes.length) fun retainedBytes =>
        s.attempt (validateLogEntriesForSnapshot codec s.retainedLogEntries s.latestSnapshot) fun _ =>
        (.ok ⟨throughIndex, 0, compactedBytes, s.retainedLogEntries.length, retainedBytes⟩, s)
      else
        let retained := s.retainedLogEntries.drop suffixStart
        s.attempt (retainedLogEntryBytesSuffix s.retainedLogEntries s.retainedLogEntryBytes suffixStart)
          fun retainedSizes =>
        s.attempt (retainedPrefixFileLen retainedSizes retainedSizes.length) fun retainedBytes =>
        s.attempt (validateLogEntriesForSnapshot codec retained s.latestSnapshot) fun _ =>
        s.attempt io.write fun _ =>
        s.attempt (s.replaceRetainedLogState codec retained retainedSizes) fun s' =>
          (.ok ⟨throughIndex, s.retainedLogEntries.length - retained.length, compactedBytes, retained.length,
            retainedBytes⟩, s')

end RaftLogStore

end LiveMutex.Raft
