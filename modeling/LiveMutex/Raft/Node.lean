/-
One node of the cluster: what it keeps on disk, what it keeps in memory, the
tasks that are under way in it, and what it can do next.

A task is cut where the source lets go of its locks. An AppendEntries request is
handled in four pieces (`prepare_append_entries`, the previous-entry check,
`append_entries_from_leader`, `finish_append_entries_from_peer`), an election in
as many as it makes reads and waits, a vote, a leader's own append and its commit
in two. Between two pieces anything else may happen in the node; a task whose next
piece never comes is one that was given up. What holds `apply_snapshot_lock` is one
task at a time (`ApplyTask`): applying entries, changing the membership, switching
the broker to a snapshot.

What only decides when something is done (timers, batching, retries, connections,
telemetry) is left out: the pieces may run whenever their own checks pass. So are
pre-votes, which a candidate collects before `beginElection` and which change nothing
at those who give them: what holds for every run here holds for the runs in which
they are collected, and a run that is to be one of the source's is one in which they
can be. A peer gives its own for a later term if it has heard no leader lately and
the candidate's log is as late as its own, and the candidate counts the answers of
peers whose term is not below its own.
-/
import LiveMutex.Raft.Repair
import LiveMutex.Raft.Membership
import LiveMutex.Raft.ResponseCache

namespace LiveMutex.Raft

/-! ## Commands, requests and answers -/

/-- A command of the log. `ClientRequest` and `DropClient` are one kind here; staged
learners do not vote, and their command is left out. -/
inductive RaftCommand (ν α : Type) where
  | noop
  | request (a : α)
  /-- `ClientRequestWithIdentity` -/
  | requestWithIdentity (identity : RequestIdentity) (a : α)
  | setMembership (membership : RaftMembership ν)
  deriving Repr, DecidableEq

def RaftCommand.ofRequest {ν α : Type} : Option RequestIdentity × α → RaftCommand ν α
  | (none, a) => .request a
  | (some identity, a) => .requestWithIdentity identity a

structure RequestVote (ν : Type) where
  term : Nat
  candidateId : ν
  lastLogIndex : Nat
  lastLogTerm : Nat
  deriving Repr, DecidableEq

structure AppendEntries (ν α : Type) where
  term : Nat
  leaderId : ν
  prevLogIndex : Nat
  prevLogTerm : Nat
  entries : List (RaftLogEntry (RaftCommand ν α))
  leaderCommit : Nat
  deriving Repr, DecidableEq

/-- The last index a request covers. -/
def AppendEntries.sentMatchIndex {ν α : Type} (r : AppendEntries ν α) : Nat :=
  (r.entries.getLast?.map (·.index)).getD r.prevLogIndex

/-- An answer is read on the connection its request went out on, so it stands
with the request here. -/
structure AppendEntriesResponse (ν α : Type) where
  peer : ν
  request : AppendEntries ν α
  term : Nat
  success : Bool
  matchIndex : Nat
  conflictIndex : Option Nat
  conflictTerm : Option Nat
  deriving Repr, DecidableEq

/-- What a snapshot holds: the broker, the membership it was taken under, and the
response cache. -/
structure SnapshotPayload (ν σ : Type) where
  broker : σ
  membership : Option (RaftMembership ν)
  clientResponses : List ClientResponseSnapshotEntry
  deriving DecidableEq

/-- A snapshot for a peer. It goes out in chunks that are put together and checked
against a checksum before anything is done with them; it is one message here. -/
structure InstallSnapshot (ν σ : Type) where
  term : Nat
  leaderId : ν
  lastIncludedIndex : Nat
  lastIncludedTerm : Nat
  payload : SnapshotPayload ν σ
  deriving DecidableEq

structure InstallSnapshotResponse (ν σ : Type) where
  peer : ν
  request : InstallSnapshot ν σ
  term : Nat
  installedIndex : Nat
  deriving DecidableEq

/-- What is sent between nodes. Of the answers to a vote request only a granted
vote matters, of those to a snapshot only a success. -/
inductive Message (ν α σ : Type) where
  | requestVote (r : RequestVote ν)
  | voteGranted (voter : ν) (r : RequestVote ν)
  | appendEntries (r : AppendEntries ν α)
  | appended (r : AppendEntriesResponse ν α)
  | installSnapshot (r : InstallSnapshot ν σ)
  | installed (r : InstallSnapshotResponse ν σ)
  deriving DecidableEq

/-! ## The state of a node -/

inductive RaftRole where
  | follower
  | candidate
  | leader
  deriving Repr, DecidableEq

structure RaftHardState (ν : Type) where
  currentTerm : Nat := 0
  votedFor : Option ν := none
  commitIndex : Nat := 0
  deriving Repr, DecidableEq

inductive HardStateVotePolicy where
  | preserveSameTermVote
  | forceClearSameTermVote
  deriving Repr, DecidableEq

structure RaftRuntimeState (ν : Type) where
  currentTerm : Nat
  votedFor : Option ν
  role : RaftRole
  leaderId : Option ν
  commitIndex : Nat
  lastApplied : Nat
  leaderProgress : ν → Option RaftPeerProgress
  membership : RaftMembership ν
  localVoterSeen : Bool

/-- An election under way, with what it has read of the log so far and the votes
it has. -/
structure RaftCandidateRound (ν : Type) where
  term : Nat
  membership : RaftMembership ν
  lastLogIndex : Option Nat
  lastLogTerm : Option Nat
  votes : List ν

/-- A leader's append that has passed its checks. -/
structure Proposal (ν α : Type) where
  term : Nat
  commands : List (RaftCommand ν α)

/-- Where the handler of an AppendEntries request stands. -/
inductive AppendStage where
  /-- `prepare_append_entries` passed, with this commit index. -/
  | prepared (localCommitIndex : Nat)
  /-- The previous entry is there. -/
  | checked (localCommitIndex : Nat)
  /-- The log store has answered. -/
  | reported (report : RaftAppendReport)

structure AppendHandler (ν α : Type) where
  request : AppendEntries ν α
  stage : AppendStage

/-- Where the handler of an InstallSnapshot request stands. -/
inductive InstallStage (ν σ : Type) where
  /-- `accept_validated_install_snapshot_sender` passed. -/
  | accepted
  /-- The store's snapshot is older. -/
  | staged
  /-- The sender was seen to be the leader still. -/
  | ensured
  /-- The store has this snapshot. -/
  | stored (installedIndex : Nat) (payload : SnapshotPayload ν σ)

structure InstallHandler (ν σ : Type) where
  request : InstallSnapshot ν σ
  stage : InstallStage ν σ

/-- `apply_membership` under way: the write that clears the vote, if it is still to
be made. -/
structure MembershipChange (ν : Type) where
  membership : RaftMembership ν
  hardState : Option (RaftHardState ν)

/-- Where `apply_installed_snapshot_payload` stands. -/
inductive RestoreStage (ν : Type) where
  /-- The commit index is to be written. -/
  | persist (hardState : Option (RaftHardState ν)) (shouldApply : Bool)
  /-- The membership comes next. -/
  | persisted (shouldApply : Bool)
  | changing (change : MembershipChange ν)
  /-- The broker comes next. -/
  | changed (shouldApply : Bool)

/-- What holds `apply_snapshot_lock`. -/
inductive ApplyTask (ν α σ : Type) where
  /-- `apply_committed` with the entries it has read and not applied yet; nothing
  is under way if there are none. -/
  | entries (rest : List (RaftLogEntry (RaftCommand ν α)))
  /-- `apply_membership`, for the first of these entries. -/
  | changing (change : MembershipChange ν) (rest : List (RaftLogEntry (RaftCommand ν α)))
  /-- `apply_installed_snapshot_payload`. -/
  | restoring (installedIndex : Nat) (payload : SnapshotPayload ν σ) (stage : RestoreStage ν)

structure BrokerRaftConfig (ν α σ : Type) where
  nodeId : ν
  peers : List ν
  /-- The broker a node starts with. -/
  broker : σ
  /-- What a command does to the broker. -/
  handleRequest : α → σ → σ
  clientResponseCacheMaxEntries : Nat

structure RaftNode (ν α σ : Type) where
  -- on disk
  hardState : RaftHardState ν
  log : RaftLogState (RaftCommand ν α)
  snapshotFile : Option (SnapshotPayload ν σ)
  -- in memory
  runtime : RaftRuntimeState ν
  broker : σ
  /-- `client_response_cache` -/
  responses : ClientResponseCacheState
  -- under way
  elections : List (RaftCandidateRound ν)
  /-- Votes that were written and not answered yet. -/
  voting : List (RequestVote ν)
  proposals : List (Proposal ν α)
  /-- Commits of a leader that are to be written. -/
  committing : List (RaftHardState ν)
  handlers : List (AppendHandler ν α)
  installs : List (InstallHandler ν σ)
  applyTask : ApplyTask ν α σ

variable {ν α σ : Type} [DecidableEq ν]

/-- `write_hard_state`: neither the term nor the commit index goes back, and a
vote of the same term is not replaced; `none` if it would be. -/
def RaftHardState.write (persisted : RaftHardState ν) (policy : HardStateVotePolicy) (state : RaftHardState ν) :
    Option (RaftHardState ν) :=
  let next :=
    if state.currentTerm < persisted.currentTerm then
      { state with currentTerm := persisted.currentTerm, votedFor := persisted.votedFor }
    else state
  let next := { next with commitIndex := max next.commitIndex persisted.commitIndex }
  if next.currentTerm = persisted.currentTerm then
    match persisted.votedFor, next.votedFor with
    | some existingVote, some nextVote => if existingVote = nextVote then some next else none
    | some existingVote, none =>
      if policy = .preserveSameTermVote then some { next with votedFor := some existingVote } else some next
    | none, _ => some next
  else some next

namespace RaftNode

variable (config : BrokerRaftConfig ν α σ) (n : RaftNode ν α σ)

def writeHardState (state : RaftHardState ν) : Option (RaftNode ν α σ) :=
  (n.hardState.write .preserveSameTermVote state).map fun hardState => { n with hardState }

def localPeerIsActive : Bool :=
  n.runtime.membership.containsId config.nodeId

def localSeenVoterIsRemoved : Bool :=
  n.runtime.localVoterSeen && !n.localPeerIsActive config

/-- A sender is listened to if it is another node of the current membership
(`active_peer_sender_rejection_error`). -/
def acceptsSender (peer : ν) : Bool :=
  peer ≠ config.nodeId && n.runtime.membership.containsId peer

/-! ## Elections -/

def beginCandidateElection : Option (RaftNode ν α σ) :=
  if n.localPeerIsActive config then
    let term := n.runtime.currentTerm + 1
    (n.writeHardState ⟨term, some config.nodeId, n.runtime.commitIndex⟩).map fun n =>
      { n with
        runtime := { n.runtime with
          role := .candidate, currentTerm := term, votedFor := some config.nodeId, leaderId := none }
        elections := ⟨term, n.runtime.membership, none, none, [config.nodeId]⟩ :: n.elections }
  else none

/-- The candidate of a round is still one. -/
def stillCandidate (round : RaftCandidateRound ν) : Bool :=
  n.runtime.currentTerm == round.term && n.runtime.role == .candidate &&
    n.runtime.membership == round.membership && n.localPeerIsActive config

def readLastLogIndex (k : Nat) : Option (RaftNode ν α σ) := do
  let round ← n.elections[k]?
  if n.stillCandidate config round ∧ round.lastLogIndex = none then
    some { n with elections := n.elections.set k { round with lastLogIndex := some n.log.lastIndex } }
  else none

/-- The second read; the requests go out with what both have found. -/
def readLastLogTerm (k : Nat) : Option (RaftNode ν α σ × List (Message ν α σ)) := do
  let round ← n.elections[k]?
  let lastLogIndex ← round.lastLogIndex
  if round.lastLogTerm = none then
    some ({ n with elections := n.elections.set k { round with lastLogTerm := some n.log.lastTerm } },
      [.requestVote ⟨round.term, config.nodeId, lastLogIndex, n.log.lastTerm⟩])
  else none

def recordVote (k : Nat) (voter : ν) (request : RequestVote ν) : Option (RaftNode ν α σ) := do
  let round ← n.elections[k]?
  if request.term = round.term ∧ request.candidateId = config.nodeId ∧ voter ≠ config.nodeId ∧
      round.membership.containsId voter then
    some { n with elections := n.elections.set k { round with votes := voter :: round.votes } }
  else none

def seedLeaderProgress (nextIndex : Nat) : ν → Option RaftPeerProgress := fun peer =>
  if n.runtime.membership.containsId peer ∧ peer ≠ config.nodeId then some ⟨nextIndex, 0⟩ else none

def becomeLeader (k : Nat) : Option (RaftNode ν α σ) := do
  let round ← n.elections[k]?
  if round.membership.quorumMet round.votes ∧ n.stillCandidate config round then
    some { n with
      runtime := { n.runtime with
        role := .leader, leaderId := some config.nodeId
        leaderProgress := n.seedLeaderProgress config (n.log.lastIndex + 1) }
      elections := n.elections.eraseIdx k }
  else none

/-- Why a vote request is refused before anything is looked at. -/
def malformedVoteRequestReason (term lastLogIndex lastLogTerm : Nat) : Option String :=
  if term = 0 then some "term must be >= 1"
  else if lastLogIndex = 0 ∧ lastLogTerm ≠ 0 then some "lastLogTerm must be 0 when lastLogIndex is 0"
  else if 0 < lastLogIndex ∧ lastLogTerm = 0 then
    some "lastLogTerm must be >= 1 when lastLogIndex is nonzero"
  else if term < lastLogTerm then some "lastLogTerm cannot exceed request term"
  else none

def candidateLogIsFresh (lastLogIndex lastLogTerm : Nat) : Bool :=
  n.log.lastTerm < lastLogTerm || lastLogTerm == n.log.lastTerm && n.log.lastIndex ≤ lastLogIndex

/-- `handle_request_vote_from_peer`, from where it takes the runtime lock to where
it lets it go. `beforeDeadline` says whether the election deadline is still ahead. -/
def handleRequestVote (r : RequestVote ν) (beforeDeadline : Bool) : Option (RaftNode ν α σ) :=
  let rt := n.runtime
  if (malformedVoteRequestReason r.term r.lastLogIndex r.lastLogTerm).isSome ∨ !n.localPeerIsActive config ∨
      !n.acceptsSender config r.candidateId ∨ r.term < rt.currentTerm ∨
      (r.term = rt.currentTerm ∧ rt.leaderId.any (· ≠ r.candidateId) ∧ beforeDeadline) then none
  else if (rt.currentTerm < r.term ∨ rt.votedFor.all (· = r.candidateId)) ∧
      n.candidateLogIsFresh r.lastLogIndex r.lastLogTerm then
    (n.writeHardState ⟨r.term, some r.candidateId, rt.commitIndex⟩).map fun n =>
      { n with
        runtime := { rt with
          currentTerm := r.term
          role := if rt.currentTerm < r.term then .follower else rt.role
          votedFor := some r.candidateId, leaderId := none }
        voting := r :: n.voting }
  else if rt.currentTerm < r.term then
    (n.writeHardState ⟨r.term, none, rt.commitIndex⟩).map fun n =>
      { n with runtime := { rt with currentTerm := r.term, role := .follower, votedFor := none, leaderId := none } }
  else none

/-- The answer to a vote request, if the vote still stands. -/
def answerRequestVote (k : Nat) : Option (RaftNode ν α σ × List (Message ν α σ)) := do
  let r ← n.voting[k]?
  let n := { n with voting := n.voting.eraseIdx k }
  if n.runtime.currentTerm = r.term ∧ n.localPeerIsActive config ∧ n.acceptsSender config r.candidateId ∧
      n.runtime.votedFor = some r.candidateId then
    some (n, [.voteGranted config.nodeId r])
  else some (n, [])

/-- `step_down`, on a term seen in an answer or when a proposal finds no quorum. -/
def stepDown (term : Nat) (leaderId : Option ν) : Option (RaftNode ν α σ) :=
  let rt := n.runtime
  if rt.currentTerm ≤ term then
    let votedFor := if rt.currentTerm < term then none else rt.votedFor
    (n.writeHardState ⟨term, votedFor, rt.commitIndex⟩).map fun n =>
      { n with runtime := { rt with
          currentTerm := term, role := .follower, votedFor
          leaderId := leaderId.filter fun leader => leader ≠ config.nodeId && rt.membership.containsId leader
          commitIndex := max rt.commitIndex n.hardState.commitIndex } }
  else none

/-! ## A leader's entries -/

/-- The checks of `append_local_batch_as_leader`, after which the runtime lock is
let go. -/
def propose (commands : List (RaftCommand ν α)) : Option (RaftNode ν α σ) :=
  if n.runtime.role = .leader ∧ n.localPeerIsActive config then
    some { n with proposals := ⟨n.runtime.currentTerm, commands⟩ :: n.proposals }
  else none

/-- The command a call of `change_membership` appends: first the joint
membership, and once that is in force the new one alone. -/
def changeMembershipCommand (newPeers : List ν) : Option (RaftCommand ν α) :=
  match n.runtime.membership with
  | .joint _ jointNewPeers => if newPeers = jointNewPeers then some (.setMembership (.simple newPeers)) else none
  | .simple peers =>
    if peers = newPeers then none
    else some (.setMembership (.joint n.runtime.membership.activePeers newPeers))

/-- `change_membership`, for a list of at least three distinct peers. -/
def changeMembership (newPeers : List ν) : Option (RaftNode ν α σ) :=
  if 3 ≤ newPeers.length ∧ newPeers.Nodup then do
    let command ← n.changeMembershipCommand newPeers
    n.propose config [command]
  else none

/-- The append itself (`append_batch`). -/
def appendProposal (k : Nat) : Option (RaftNode ν α σ) := do
  let proposal ← n.proposals[k]?
  match n.log.appendBatch proposal.term proposal.commands with
  | .ok log => some { n with log, proposals := n.proposals.eraseIdx k }
  | .error _ => none

/-! ## Replication, the leader's side -/

def setProgress (peer : ν) (progress : RaftPeerProgress) : RaftNode ν α σ :=
  { n with runtime := { n.runtime with
      leaderProgress := Function.update n.runtime.leaderProgress peer (some progress) } }

def progressOf (peer : ν) : RaftPeerProgress :=
  (n.runtime.leaderProgress peer).getD ⟨n.log.lastIndex + 1, 0⟩

/-- One batch to a peer. The commit index that goes with it was read before, and
may be behind. A peer the retained log does not reach gets a snapshot instead.
Staged learners get batches too; who is staged is left out, so a peer is any other
node. -/
def replicate (peer : ν) (maxEntries leaderCommit : Nat) : Option (RaftNode ν α σ × List (Message ν α σ)) :=
  if n.runtime.role = .leader ∧ peer ≠ config.nodeId ∧ leaderCommit ≤ n.runtime.commitIndex then
    let progress := n.log.startProgress (n.progressOf peer)
    match n.log.prevTermEntriesLimited progress.nextIndex maxEntries with
    | none => none
    | some (prevLogTerm, entries) =>
      if entries.head?.any (·.index != progress.nextIndex) then none
      else some (n.setProgress peer progress,
        [.appendEntries ⟨n.runtime.currentTerm, config.nodeId, progress.nextIndex - 1, prevLogTerm, entries,
          leaderCommit⟩])
  else none

/-- A success the request could not have had. -/
def invalidSuccess (r : AppendEntriesResponse ν α) : Bool :=
  r.conflictIndex.isSome || r.conflictTerm.isSome || r.matchIndex < r.request.prevLogIndex ||
    !r.request.entries.isEmpty && r.matchIndex < r.request.sentMatchIndex

/-- The answer to a batch: what is acknowledged is noted, a conflict moves the
next probe. -/
def handleAppended (r : AppendEntriesResponse ν α) : Option (RaftNode ν α σ) :=
  let nextIndex := r.request.prevLogIndex + 1
  if n.runtime.role = .leader ∧ n.runtime.currentTerm = r.request.term ∧ r.term = r.request.term ∧
      r.request.leaderId = config.nodeId ∧ r.peer ≠ config.nodeId then
    if r.success then
      if invalidSuccess r ∨ (n.runtime.leaderProgress r.peer).any (·.nextIndex < nextIndex) then none
      else
        let acknowledged := min r.matchIndex r.request.sentMatchIndex
        let progress := (n.runtime.leaderProgress r.peer).getD ⟨acknowledged + 1, 0⟩
        let matchIndex := max progress.matchIndex acknowledged
        some (n.setProgress r.peer ⟨max progress.nextIndex (matchIndex + 1), matchIndex⟩)
    else if (n.runtime.leaderProgress r.peer).any (·.nextIndex ≠ nextIndex) then none
    else
      let progress := { (n.runtime.leaderProgress r.peer).getD ⟨nextIndex, 0⟩ with nextIndex }
      some (n.setProgress r.peer
        (n.log.progressAfterConflict r.term progress ⟨false, r.matchIndex, r.conflictIndex, r.conflictTerm⟩))
  else none

/-- Who is known to have an index (`matched_ids_for_index`), among those a
membership asks. -/
def matchedIdsForIndex (membership : RaftMembership ν) (index : Nat) : List ν :=
  membership.activePeers.filter fun peer =>
    if peer = config.nodeId then index ≤ n.log.lastIndex
    else (n.runtime.leaderProgress peer).any fun progress =>
      progress.matchIndex ≤ n.log.lastIndex && index ≤ progress.matchIndex

/-- The membership an entry is committed under: the one in force, or for
`change_membership` the joint one it is about to bring in. -/
def commitMembership (index : Nat) (ofChange : Bool) : RaftMembership ν :=
  match (retainedEntryAt n.log.retainedLogEntries index).map RaftLogEntry.command with
  | some (.setMembership (.joint oldPeers newPeers)) =>
    if ofChange then .joint oldPeers newPeers else n.runtime.membership
  | _ => n.runtime.membership

/-- The check of `commit_leader_index_in_term`: the leader's commit index may go to
an entry of its own term that a quorum has. -/
def commitLeaderIndex (index : Nat) (ofChange : Bool) : Option (RaftNode ν α σ) :=
  let rt := n.runtime
  let membership := n.commitMembership index ofChange
  if n.log.termAtIndex index = some rt.currentTerm ∧ rt.role = .leader ∧ rt.commitIndex < index ∧
      membership.quorumMet (n.matchedIdsForIndex config membership index) then
    some { n with committing := ⟨rt.currentTerm, rt.votedFor, index⟩ :: n.committing }
  else none

/-- The write that follows, on disk; memory is brought up to it by `syncCommit`. -/
def writeCommit (k : Nat) : Option (RaftNode ν α σ) := do
  let state ← n.committing[k]?
  ({ n with committing := n.committing.eraseIdx k } : RaftNode ν α σ).writeHardState state

/-- The commit index in memory is brought up to the one on disk
(`apply_visible_durable_commit_index`, and the end of a leader's commit). -/
def syncCommit : RaftNode ν α σ :=
  { n with runtime := { n.runtime with commitIndex := max n.runtime.commitIndex n.hardState.commitIndex } }

/-! ## Replication, the follower's side -/

/-- A request of a later term is noted on disk first. -/
def enterTerm (term : Nat) : Option (RaftNode ν α σ) :=
  if n.runtime.currentTerm < term then n.writeHardState ⟨term, none, n.runtime.commitIndex⟩ else some n

/-- `prepare_append_entries`: the sender and its term are accepted, and a handler
is under way. -/
def prepareAppendEntries (r : AppendEntries ν α) : Option (RaftNode ν α σ) :=
  let rt := n.runtime
  if n.localSeenVoterIsRemoved config ∨ !n.acceptsSender config r.leaderId ∨ r.term < rt.currentTerm ∨
      (r.term = rt.currentTerm ∧ rt.leaderId.any (· ≠ r.leaderId)) ∨
      !(RaftLogState.validateAppendEntriesShape r.prevLogIndex r.prevLogTerm r.term r.entries).isOk then none
  else do
    let n ← n.enterTerm r.term
    let commitIndex := max rt.commitIndex n.hardState.commitIndex
    some { n with
      runtime := { rt with
        currentTerm := r.term, role := .follower, leaderId := some r.leaderId, commitIndex
        votedFor := if rt.currentTerm < r.term then none else rt.votedFor }
      handlers := ⟨r, .prepared commitIndex⟩ :: n.handlers }

def setStage (k : Nat) (handler : AppendHandler ν α) (stage : AppendStage) : RaftNode ν α σ :=
  { n with handlers := n.handlers.set k { handler with stage } }

/-- The previous-entry check of the handler. -/
def checkPrevious (k : Nat) : Option (RaftNode ν α σ) := do
  let handler ← n.handlers[k]?
  match handler.stage with
  | .prepared localCommitIndex =>
    match n.log.appendEntriesPrevConflict handler.request.prevLogIndex handler.request.prevLogTerm with
    | some report => some (n.setStage k handler (.reported report))
    | none => some (n.setStage k handler (.checked localCommitIndex))
  | _ => none

variable [DecidableEq α]

/-- The log store takes the entries in. The term is not looked at. -/
def appendFromLeader (k : Nat) : Option (RaftNode ν α σ) := do
  let handler ← n.handlers[k]?
  match handler.stage with
  | .checked localCommitIndex =>
    match n.log.appendEntriesFromLeader handler.request.prevLogIndex handler.request.prevLogTerm
        handler.request.term (max localCommitIndex n.hardState.commitIndex) handler.request.entries with
    | .ok (report, log) => some ({ n with log }.setStage k handler (.reported report))
    | .error _ => some { n with handlers := n.handlers.eraseIdx k }
  | _ => none

omit [DecidableEq α]

/-- A commit index that moves is written first. -/
def persistCommit (nextCommit : Nat) : Option (RaftNode ν α σ) :=
  let rt := n.runtime
  if nextCommit = rt.commitIndex then some n else n.writeHardState ⟨rt.currentTerm, rt.votedFor, nextCommit⟩

/-- `finish_append_entries_from_peer`: if the sender is still the leader, the
commit index follows what it says about the matched prefix. -/
def finishAppendEntries (k : Nat) : Option (RaftNode ν α σ × List (Message ν α σ)) := do
  let handler ← n.handlers[k]?
  let rt := n.runtime
  let r := handler.request
  let n := { n with handlers := n.handlers.eraseIdx k }
  let answer (success : Bool) (report : RaftAppendReport) : Message ν α σ :=
    .appended ⟨config.nodeId, r, rt.currentTerm, success, report.matchIndex, report.conflictIndex, report.conflictTerm⟩
  match handler.stage with
  | .reported report =>
    if rt.currentTerm = r.term ∧ rt.role = .follower ∧ rt.leaderId = some r.leaderId ∧
        n.acceptsSender config r.leaderId ∧ report.success then
      let nextCommit := max rt.commitIndex (min r.leaderCommit report.matchIndex)
      let n ← n.persistCommit nextCommit
      some ({ n with runtime := { rt with commitIndex := nextCommit } }, [answer true report])
    else some (n, [answer false report])
  | _ => none

/-! ## Snapshots -/

/-- A leader sends its snapshot. -/
def sendSnapshot (peer : ν) : Option (RaftNode ν α σ × List (Message ν α σ)) := do
  let metadata ← n.log.latestSnapshot
  let payload ← n.snapshotFile
  if n.runtime.role = .leader ∧ peer ≠ config.nodeId then
    some (n, [.installSnapshot ⟨n.runtime.currentTerm, config.nodeId, metadata.lastIncludedIndex,
      metadata.lastIncludedTerm, payload⟩])
  else none

/-- A peer has a snapshot. -/
def handleInstalled (r : InstallSnapshotResponse ν σ) : Option (RaftNode ν α σ) :=
  let acknowledged := r.request.lastIncludedIndex
  if n.runtime.role = .leader ∧ n.runtime.currentTerm = r.request.term ∧ r.term = r.request.term ∧
      r.request.leaderId = config.nodeId ∧ r.peer ≠ config.nodeId ∧ acknowledged ≤ r.installedIndex then
    let progress := (n.runtime.leaderProgress r.peer).getD ⟨acknowledged + 1, 0⟩
    let progress :=
      if n.log.lastIndex < progress.matchIndex then ⟨max n.log.retainedReplicationFloorNextIndex 1, 0⟩ else progress
    let matchIndex := max progress.matchIndex acknowledged
    some (n.setProgress r.peer
      ⟨if progress.matchIndex < matchIndex then matchIndex + 1 else max progress.nextIndex (matchIndex + 1), matchIndex⟩)
  else none

/-- `accept_validated_install_snapshot_sender`. -/
def acceptSnapshot (r : InstallSnapshot ν σ) : Option (RaftNode ν α σ) :=
  let rt := n.runtime
  if n.localSeenVoterIsRemoved config ∨ !n.acceptsSender config r.leaderId ∨ r.term < rt.currentTerm ∨
      (r.term = rt.currentTerm ∧ rt.leaderId.any (· ≠ r.leaderId)) then none
  else do
    let n ← n.enterTerm r.term
    some { n with
      runtime := { rt with
        currentTerm := r.term, role := .follower, leaderId := some r.leaderId
        votedFor := if rt.currentTerm < r.term then none else rt.votedFor }
      installs := ⟨r, .accepted⟩ :: n.installs }

def setInstall (k : Nat) (handler : InstallHandler ν σ) (stage : InstallStage ν σ) : RaftNode ν α σ :=
  { n with installs := n.installs.set k { handler with stage } }

def dropInstall (k : Nat) : RaftNode ν α σ :=
  { n with installs := n.installs.eraseIdx k }

/-- The sender of a snapshot is still the leader
(`ensure_current_snapshot_sender_from_peer`). -/
def currentSnapshotSender (r : InstallSnapshot ν σ) : Bool :=
  n.runtime.currentTerm == r.term && n.runtime.role == .follower && n.runtime.leaderId == some r.leaderId &&
    n.acceptsSender config r.leaderId

/-- The store's own snapshot is looked at: if it reaches as far as the one that was
sent, that one is used, if anything is behind it at all. -/
def examineSnapshot (k : Nat) : Option (RaftNode ν α σ) := do
  let handler ← n.installs[k]?
  match handler.stage with
  | .accepted =>
    match n.log.latestSnapshot.filter (handler.request.lastIncludedIndex ≤ ·.lastIncludedIndex) with
    | none => some (n.setInstall k handler .staged)
    | some snapshot =>
      if snapshot.lastIncludedIndex = handler.request.lastIncludedIndex ∧
          snapshot.lastIncludedTerm ≠ handler.request.lastIncludedTerm then some (n.dropInstall k)
      else if n.runtime.commitIndex < snapshot.lastIncludedIndex ∨
          n.runtime.lastApplied < snapshot.lastIncludedIndex then
        n.snapshotFile.map fun payload => n.setInstall k handler (.stored snapshot.lastIncludedIndex payload)
      else some (n.dropInstall k)
  | _ => none

def ensureSnapshotSender (k : Nat) : Option (RaftNode ν α σ) := do
  let handler ← n.installs[k]?
  match handler.stage with
  | .staged =>
    some (if n.currentSnapshotSender config handler.request then n.setInstall k handler .ensured else n.dropInstall k)
  | _ => none

/-- The store is switched to the snapshot that was sent, unless it has got one by
now that reaches as far. The broker is not. -/
def storeSnapshot (k : Nat) : Option (RaftNode ν α σ) := do
  let handler ← n.installs[k]?
  let r := handler.request
  match handler.stage with
  | .ensured =>
    match n.log.installSnapshotFromLeader r.lastIncludedIndex r.lastIncludedTerm with
    | .ok (metadata, log) =>
      let snapshotFile :=
        if n.log.latestSnapshot.any (r.lastIncludedIndex ≤ ·.lastIncludedIndex) then n.snapshotFile else some r.payload
      some ({ n with log, snapshotFile }.setInstall k handler (.stored metadata.lastIncludedIndex r.payload))
    | .error _ => some (n.dropInstall k)
  | _ => none

/-- The first piece of `apply_installed_snapshot_payload`. -/
def restoreFrom (installedIndex : Nat) (payload : SnapshotPayload ν σ) : ApplyTask ν α σ :=
  let rt := n.runtime
  let nextCommit := max rt.commitIndex installedIndex
  .restoring installedIndex payload (.persist
    (if nextCommit = rt.commitIndex then none else some ⟨rt.currentTerm, rt.votedFor, nextCommit⟩)
    (rt.lastApplied < installedIndex))

/-- `finish_installed_snapshot_payload_from_peer`: refused if the sender is no longer
the leader. -/
def finishSnapshot (k : Nat) : Option (RaftNode ν α σ × List (Message ν α σ)) := do
  let handler ← n.installs[k]?
  match handler.stage, n.applyTask with
  | .stored installedIndex payload, .entries [] =>
    if n.currentSnapshotSender config handler.request then
      some ({ n.dropInstall k with applyTask := n.restoreFrom installedIndex payload },
        [.installed ⟨config.nodeId, handler.request, n.runtime.currentTerm, installedIndex⟩])
    else some (n.dropInstall k, [])
  | _, _ => none

/-- The snapshot part of `apply_visible_durable_commit_index`: a snapshot the store
has and the broker has not is installed, if the commit index on disk covers it. -/
def applyVisibleSnapshot : Option (RaftNode ν α σ) := do
  let snapshot ← n.log.latestSnapshot
  let payload ← n.snapshotFile
  match n.applyTask with
  | .entries [] =>
    if snapshot.lastIncludedIndex ≤ n.hardState.commitIndex ∧ n.runtime.lastApplied < snapshot.lastIncludedIndex then
      some { n with applyTask := n.restoreFrom snapshot.lastIncludedIndex payload }
    else none
  | _ => none

/-- A node's own snapshot (`snapshot_and_compact_if_needed`), taken of what is
applied if all that is committed is. -/
def takeSnapshot : Option (RaftNode ν α σ) := do
  let rt := n.runtime
  let term ← n.log.termAtIndex rt.commitIndex
  match n.applyTask with
  | .entries [] =>
    if 0 < rt.commitIndex ∧ rt.commitIndex ≤ rt.lastApplied ∧ term ≤ rt.currentTerm then
      match n.log.writeSnapshot rt.commitIndex term with
      | .ok log =>
        let snapshotFile :=
          if n.log.latestSnapshot.any (rt.commitIndex ≤ ·.lastIncludedIndex) then n.snapshotFile
          else some ⟨n.broker, some rt.membership, n.responses.clientResponseSnapshotEntries⟩
        some { n with log, snapshotFile }
      | .error _ => none
    else none
  | _ => none

/-- Entries the snapshot covers are dropped. -/
def compact (throughIndex : Nat) : Option (RaftNode ν α σ) :=
  match n.applyTask, n.log.compactThrough throughIndex with
  | .entries [], .ok log => some { n with log }
  | _, _ => none

/-! ## Applying -/

/-- The first piece of `apply_membership`. A vote for a node that is no longer a
member is to be cleared, and any vote if the node itself is none. -/
def prepareMembership (membership : RaftMembership ν) : MembershipChange ν :=
  let rt := n.runtime
  let durableCommitIndex := max n.hardState.commitIndex n.log.snapshotIndex
  ⟨membership,
    if !membership.containsId config.nodeId || rt.votedFor.any (!membership.containsId ·) then
      some ⟨rt.currentTerm, none, max rt.commitIndex durableCommitIndex⟩
    else none⟩

/-- The last piece of `apply_membership`: the membership comes into force. -/
def enterMembership (membership : RaftMembership ν) : RaftNode ν α σ :=
  let rt := n.runtime
  let active := membership.containsId config.nodeId
  let keep (peer : Option ν) : Option ν := peer.filter membership.containsId
  { n with
    runtime := { rt with
      membership, localVoterSeen := rt.localVoterSeen || active
      role := if active then rt.role else .follower
      leaderId := if active then keep rt.leaderId else none
      votedFor := if active then keep rt.votedFor else none
      leaderProgress := fun peer =>
        if !active || !membership.containsId peer || peer = config.nodeId then none
        else if rt.role = .leader then some ((rt.leaderProgress peer).getD ⟨n.log.lastIndex + 1, 0⟩)
        else rt.leaderProgress peer } }

/-- How many entries `apply_committed` reads at a time. -/
def applyCommittedChunkEntries : Nat := 1024

/-- `apply_committed` reads the next entries. If none are retained in the range
(and the store does not call it a gap), the range counts as applied. -/
def readCommitted : Option (RaftNode ν α σ) :=
  let rt := n.runtime
  let startIndex := rt.lastApplied + 1
  let endIndex := min rt.commitIndex (startIndex + applyCommittedChunkEntries - 1)
  match n.applyTask with
  | .entries [] =>
    if startIndex ≤ rt.commitIndex then
      match n.log.entriesRange startIndex endIndex with
      | .error _ => none
      | .ok [] => some { n with runtime := { rt with lastApplied := endIndex } }
      | .ok entries => some { n with applyTask := .entries entries }
    else none
  | _ => none

/-- An entry is applied. -/
def applied (entry : RaftLogEntry (RaftCommand ν α)) (rest : List (RaftLogEntry (RaftCommand ν α))) :
    RaftNode ν α σ :=
  { n with runtime := { n.runtime with lastApplied := entry.index }, applyTask := .entries rest }

/-- The write of `apply_membership` that clears the vote. -/
def clearVote (state : RaftHardState ν) (next : ApplyTask ν α σ) : Option (RaftNode ν α σ) :=
  (n.hardState.write .forceClearSameTermVote state).map fun hardState => { n with hardState, applyTask := next }

/-- The end of `apply_installed_snapshot_payload`. -/
def reached (installedIndex : Nat) : RaftNode ν α σ :=
  { n with
    runtime := { n.runtime with
      commitIndex := max n.runtime.commitIndex installedIndex
      lastApplied := max n.runtime.lastApplied installedIndex }
    applyTask := .entries [] }

/-- The next piece of `apply_installed_snapshot_payload`. -/
def restoreNext (installedIndex : Nat) (payload : SnapshotPayload ν σ) : RestoreStage ν → Option (RaftNode ν α σ)
  | .persist none shouldApply => some { n with applyTask := .restoring installedIndex payload (.persisted shouldApply) }
  | .persist (some state) shouldApply =>
    (n.writeHardState state).map fun n =>
      { n with applyTask := .restoring installedIndex payload (.persisted shouldApply) }
  | .persisted shouldApply =>
    match payload.membership.filter fun _ => shouldApply with
    | some membership =>
      some { n with applyTask := .restoring installedIndex payload (.changing (n.prepareMembership config membership)) }
    | none => some { n with applyTask := .restoring installedIndex payload (.changed shouldApply) }
  | .changing ⟨membership, some state⟩ =>
    n.clearVote state (.restoring installedIndex payload (.changing ⟨membership, none⟩))
  | .changing ⟨membership, none⟩ =>
    some { n.enterMembership config membership with applyTask := .restoring installedIndex payload (.changed true) }
  | .changed false => some (n.reached installedIndex)
  | .changed true =>
    match ClientResponseCacheState.restoreClientResponseCache (cacheLimit config.clientResponseCacheMaxEntries)
        payload.clientResponses with
    | .error _ => some { n with applyTask := .entries [] }
    | .ok responses => some ({ n with broker := payload.broker, responses }.reached installedIndex)

/-- The next piece of what holds `apply_snapshot_lock`. -/
def applyNext : Option (RaftNode ν α σ) :=
  match n.applyTask with
  | .entries [] => none
  | .entries (entry :: rest) =>
    match entry.command with
    | .noop => some (n.applied entry rest)
    | .request a => some ({ n with broker := config.handleRequest a n.broker }.applied entry rest)
    | .requestWithIdentity identity a =>
      match n.responses.beginClientRequestApply (cacheLimit config.clientResponseCacheMaxEntries) identity with
      | .ok (true, responses) =>
        some ({ n with broker := config.handleRequest a n.broker, responses }.applied entry rest)
      | .ok (false, responses) => some ({ n with responses }.applied entry rest)
      -- `apply_committed` returns, and reads from here again the next time
      | .error _ => some { n with applyTask := .entries [] }
    | .setMembership membership =>
      some { n with applyTask := .changing (n.prepareMembership config membership) (entry :: rest) }
  | .changing ⟨membership, some state⟩ rest => n.clearVote state (.changing ⟨membership, none⟩ rest)
  | .changing ⟨membership, none⟩ (entry :: rest) => some ((n.enterMembership config membership).applied entry rest)
  | .changing _ [] => none
  | .restoring installedIndex payload stage => n.restoreNext config installedIndex payload stage

/-- What else happens to the response cache: a leader reserves an id or gives it
back, and responses come in. -/
def touchResponses (ev : ResponseEvent) : RaftNode ν α σ :=
  { n with responses := n.responses.handle (cacheLimit config.clientResponseCacheMaxEntries) ev }

/-! ## Starting -/

/-- A node as it comes up from disk: a follower that knows no leader, with the
snapshot installed and nothing behind it applied. It does not come up if its
commit index is behind the end of its log, or the responses of the snapshot are
refused. The membership of the snapshot is gone through once more, like one that was
just installed. -/
def restart : Option (RaftNode ν α σ) :=
  if n.log.lastIndex < n.hardState.commitIndex then none
  else do
    let responses ← (ClientResponseCacheState.restoreClientResponseCache
      (cacheLimit config.clientResponseCacheMaxEntries) ((n.snapshotFile.map (·.clientResponses)).getD [])).toOption
    let currentTerm := max n.hardState.currentTerm n.log.lastTerm
    let hardState : RaftHardState ν :=
      { currentTerm
        votedFor := if currentTerm = n.hardState.currentTerm then n.hardState.votedFor else none
        commitIndex := max n.hardState.commitIndex n.log.snapshotIndex }
    let membership := (n.snapshotFile.bind (·.membership)).getD (.simple config.peers)
    let up : RaftNode ν α σ :=
      { hardState, log := n.log, snapshotFile := n.snapshotFile
        runtime :=
          { currentTerm, votedFor := hardState.votedFor, role := .follower, leaderId := none
            commitIndex := hardState.commitIndex, lastApplied := min n.log.snapshotIndex hardState.commitIndex
            leaderProgress := fun _ => none, membership
            localVoterSeen := n.runtime.localVoterSeen || config.peers.contains config.nodeId ||
              membership.containsId config.nodeId }
        broker := (n.snapshotFile.map (·.broker)).getD config.broker, responses
        elections := [], voting := [], proposals := [], committing := [], handlers := [], installs := []
        applyTask := .entries [] }
    match n.snapshotFile with
    | some ⟨broker, some membership, clientResponses⟩ =>
      let change := up.prepareMembership config membership
      some { up with
        applyTask := .restoring n.log.snapshotIndex ⟨broker, some membership, clientResponses⟩ (.changing change) }
    | _ => some up

/-- A vote for a node that is no longer a member is forgotten when the node comes
up (`clear_removed_vote_for_current_membership`). -/
def clearRemovedVote : Option (RaftNode ν α σ) :=
  let rt := n.runtime
  if rt.votedFor.any (!rt.membership.containsId ·) then
    (n.hardState.write .forceClearSameTermVote ⟨rt.currentTerm, none, rt.commitIndex⟩).map fun hardState =>
      { n with hardState, runtime := { rt with votedFor := none } }
  else none

/-- A node that never ran. -/
def fresh (config : BrokerRaftConfig ν α σ) : RaftNode ν α σ where
  hardState := {}
  log := {}
  snapshotFile := none
  runtime :=
    { currentTerm := 0, votedFor := none, role := .follower, leaderId := none, commitIndex := 0, lastApplied := 0
      leaderProgress := fun _ => none, membership := .simple config.peers
      localVoterSeen := config.peers.contains config.nodeId }
  broker := config.broker
  responses := {}
  elections := []
  voting := []
  proposals := []
  committing := []
  handlers := []
  installs := []
  applyTask := .entries []

end RaftNode

/-! ## What a node can do -/

/-- The pieces of a node's tasks. A number picks the task among those of its kind
that are under way. -/
inductive Event (ν α σ : Type) where
  | beginElection
  | readLastLogIndex (k : Nat)
  | readLastLogTerm (k : Nat)
  | recordVote (k : Nat) (voter : ν) (r : RequestVote ν)
  | becomeLeader (k : Nat)
  | handleRequestVote (r : RequestVote ν) (beforeDeadline : Bool)
  | answerRequestVote (k : Nat)
  | stepDown (term : Nat) (leaderId : Option ν)
  | propose (requests : List (Option RequestIdentity × α))
  | proposeNoop
  | changeMembership (newPeers : List ν)
  | appendProposal (k : Nat)
  | replicate (peer : ν) (maxEntries leaderCommit : Nat)
  | handleAppended (r : AppendEntriesResponse ν α)
  | commitLeaderIndex (index : Nat) (ofChange : Bool)
  | writeCommit (k : Nat)
  | syncCommit
  | prepareAppendEntries (r : AppendEntries ν α)
  | checkPrevious (k : Nat)
  | appendFromLeader (k : Nat)
  | finishAppendEntries (k : Nat)
  | sendSnapshot (peer : ν)
  | handleInstalled (r : InstallSnapshotResponse ν σ)
  | acceptSnapshot (r : InstallSnapshot ν σ)
  | examineSnapshot (k : Nat)
  | ensureSnapshotSender (k : Nat)
  | storeSnapshot (k : Nat)
  | finishSnapshot (k : Nat)
  | applyVisibleSnapshot
  | takeSnapshot
  | compact (throughIndex : Nat)
  | readCommitted
  | applyNext
  | restart
  | clearRemovedVote
  | touchResponses (ev : ResponseEvent)

/-- The message an event reacts to. -/
def Event.received : Event ν α σ → Option (Message ν α σ)
  | .recordVote _ voter r => some (.voteGranted voter r)
  | .handleRequestVote r _ => some (.requestVote r)
  | .handleAppended r => some (.appended r)
  | .prepareAppendEntries r => some (.appendEntries r)
  | .handleInstalled r => some (.installed r)
  | .acceptSnapshot r => some (.installSnapshot r)
  | _ => none

/-- The node after an event, and what it sends; `none` if the event cannot happen
or changes nothing. -/
def RaftNode.step [DecidableEq α] (config : BrokerRaftConfig ν α σ) (n : RaftNode ν α σ) :
    Event ν α σ → Option (RaftNode ν α σ × List (Message ν α σ))
  | .beginElection => (n.beginCandidateElection config).map (·, [])
  | .readLastLogIndex k => (n.readLastLogIndex config k).map (·, [])
  | .readLastLogTerm k => n.readLastLogTerm config k
  | .recordVote k voter r => (n.recordVote config k voter r).map (·, [])
  | .becomeLeader k => (n.becomeLeader config k).map (·, [])
  | .handleRequestVote r beforeDeadline => (n.handleRequestVote config r beforeDeadline).map (·, [])
  | .answerRequestVote k => n.answerRequestVote config k
  | .stepDown term leaderId => (n.stepDown config term leaderId).map (·, [])
  | .propose requests => (n.propose config (requests.map .ofRequest)).map (·, [])
  | .proposeNoop => (n.propose config [.noop]).map (·, [])
  | .changeMembership newPeers => (n.changeMembership config newPeers).map (·, [])
  | .appendProposal k => (n.appendProposal k).map (·, [])
  | .replicate peer maxEntries leaderCommit => n.replicate config peer maxEntries leaderCommit
  | .handleAppended r => (n.handleAppended config r).map (·, [])
  | .commitLeaderIndex index ofChange => (n.commitLeaderIndex config index ofChange).map (·, [])
  | .writeCommit k => (n.writeCommit k).map (·, [])
  | .syncCommit => some (n.syncCommit, [])
  | .prepareAppendEntries r => (n.prepareAppendEntries config r).map (·, [])
  | .checkPrevious k => (n.checkPrevious k).map (·, [])
  | .appendFromLeader k => (n.appendFromLeader k).map (·, [])
  | .finishAppendEntries k => n.finishAppendEntries config k
  | .sendSnapshot peer => n.sendSnapshot config peer
  | .handleInstalled r => (n.handleInstalled config r).map (·, [])
  | .acceptSnapshot r => (n.acceptSnapshot config r).map (·, [])
  | .examineSnapshot k => (n.examineSnapshot k).map (·, [])
  | .ensureSnapshotSender k => (n.ensureSnapshotSender config k).map (·, [])
  | .storeSnapshot k => (n.storeSnapshot k).map (·, [])
  | .finishSnapshot k => n.finishSnapshot config k
  | .applyVisibleSnapshot => n.applyVisibleSnapshot.map (·, [])
  | .takeSnapshot => n.takeSnapshot.map (·, [])
  | .compact throughIndex => (n.compact throughIndex).map (·, [])
  | .readCommitted => n.readCommitted.map (·, [])
  | .applyNext => (n.applyNext config).map (·, [])
  | .restart => (n.restart config).map (·, [])
  | .clearRemovedVote => n.clearRemovedVote.map (·, [])
  | .touchResponses ev => some (n.touchResponses config ev, [])

end LiveMutex.Raft
