/-
What the events of a node change of it, read off their definitions once.
-/
import LiveMutex.Raft.Node

namespace LiveMutex.Raft

variable {ν α σ : Type} [DecidableEq ν] {config : BrokerRaftConfig ν α σ} {n n' : RaftNode ν α σ}
  {out : List (Message ν α σ)} {k : Nat}

omit [DecidableEq ν] in
/-- An event that sends nothing. -/
theorem eq_of_map_nil {o : Option (RaftNode ν α σ)}
    (h : o.map (fun n => (n, ([] : List (Message ν α σ)))) = some (n', out)) : o = some n' ∧ out = [] := by
  obtain ⟨m, hm, heq⟩ := Option.map_eq_some_iff.1 h
  cases heq
  exact ⟨hm, rfl⟩

theorem becomeLeader_eq (hs : n.becomeLeader config k = some n') :
    ∃ round runtime, n.elections[k]? = some round ∧ round.membership.quorumMet round.votes = true ∧
      n' = { n with runtime, elections := n.elections.eraseIdx k } := by
  simp only [RaftNode.becomeLeader, Option.bind_eq_bind, Option.bind_eq_some_iff] at hs
  obtain ⟨round, hk, hs⟩ := hs
  split at hs
  · rename_i hwon
    cases hs
    exact ⟨round, _, hk, hwon.1, rfl⟩
  · cases hs

theorem enterTerm_eq {term : Nat} (hs : n.enterTerm term = some n') : ∃ hardState, n' = { n with hardState } := by
  simp only [RaftNode.enterTerm, RaftNode.writeHardState] at hs
  split at hs
  · obtain ⟨_, _, rfl⟩ := Option.map_eq_some_iff.1 hs
    exact ⟨_, rfl⟩
  · cases hs
    exact ⟨_, rfl⟩

theorem propose_eq {commands : List (RaftCommand ν α)} (hs : n.propose config commands = some n') :
    n.runtime.role = .leader ∧ n' = { n with proposals := ⟨n.runtime.currentTerm, commands⟩ :: n.proposals } := by
  unfold RaftNode.propose at hs
  split at hs
  · rename_i hcond
    cases hs
    exact ⟨hcond.1, rfl⟩
  · cases hs

theorem changeMembership_eq {newPeers : List ν} (hs : n.changeMembership config newPeers = some n') :
    ∃ command, n.changeMembershipCommand newPeers = some command ∧ n.runtime.role = .leader ∧
      n' = { n with proposals := ⟨n.runtime.currentTerm, [command]⟩ :: n.proposals } := by
  simp only [RaftNode.changeMembership, Option.bind_eq_bind] at hs
  split at hs
  · obtain ⟨command, hcommand, hs⟩ := Option.bind_eq_some_iff.1 hs
    exact ⟨command, hcommand, propose_eq hs⟩
  · cases hs

omit [DecidableEq ν] in
theorem appendProposal_eq (hs : n.appendProposal k = some n') :
    ∃ proposal log, n.proposals[k]? = some proposal ∧
      n.log.appendBatch proposal.term proposal.commands = .ok log ∧
      n' = { n with log, proposals := n.proposals.eraseIdx k } := by
  simp only [RaftNode.appendProposal, Option.bind_eq_bind, Option.bind_eq_some_iff] at hs
  obtain ⟨proposal, hk, hs⟩ := hs
  split at hs
  · rename_i log hlog
    cases hs
    exact ⟨proposal, log, hk, hlog, rfl⟩
  · cases hs

theorem replicate_eq {peer : ν} {maxEntries leaderCommit : Nat}
    (hs : n.replicate config peer maxEntries leaderCommit = some (n', out)) :
    ∃ progress r, n' = n.setProgress peer progress ∧ out = [.appendEntries r] := by
  simp only [RaftNode.replicate] at hs
  split at hs
  · split at hs
    · cases hs
    · split at hs
      · cases hs
      · cases hs
        exact ⟨_, _, rfl, rfl⟩
  · cases hs

theorem handleAppended_eq {r : AppendEntriesResponse ν α} (hs : n.handleAppended config r = some n') :
    ∃ progress, n' = n.setProgress r.peer progress := by
  simp only [RaftNode.handleAppended] at hs
  split at hs
  · split at hs
    · split at hs
      · cases hs
      · cases hs
        exact ⟨_, rfl⟩
    · split at hs
      · cases hs
      · cases hs
        exact ⟨_, rfl⟩
  · cases hs

omit [DecidableEq ν] in
theorem checkPrevious_eq (hs : n.checkPrevious k = some n') : ∃ handlers, n' = { n with handlers } := by
  simp only [RaftNode.checkPrevious, Option.bind_eq_bind, Option.bind_eq_some_iff] at hs
  obtain ⟨handler, _, hs⟩ := hs
  split at hs
  · split at hs <;> cases hs <;> exact ⟨_, rfl⟩
  · cases hs

theorem appendFromLeader_eq [DecidableEq α] (hs : n.appendFromLeader k = some n') :
    ∃ log handlers, n' = { n with log, handlers } := by
  simp only [RaftNode.appendFromLeader, Option.bind_eq_bind, Option.bind_eq_some_iff] at hs
  obtain ⟨handler, _, hs⟩ := hs
  split at hs
  · split at hs <;> cases hs <;> exact ⟨_, _, rfl⟩
  · cases hs

theorem sendSnapshot_eq {peer : ν} (hs : n.sendSnapshot config peer = some (n', out)) :
    ∃ r, n' = n ∧ out = [.installSnapshot r] := by
  simp only [RaftNode.sendSnapshot, Option.bind_eq_bind, Option.bind_eq_some_iff] at hs
  obtain ⟨metadata, _, payload, _, hs⟩ := hs
  split at hs
  · cases hs
    exact ⟨_, rfl, rfl⟩
  · cases hs

theorem handleInstalled_eq {r : InstallSnapshotResponse ν σ} (hs : n.handleInstalled config r = some n') :
    ∃ progress, n' = n.setProgress r.peer progress := by
  simp only [RaftNode.handleInstalled] at hs
  split at hs
  · cases hs
    exact ⟨_, rfl⟩
  · cases hs

omit [DecidableEq ν] in
theorem examineSnapshot_eq (hs : n.examineSnapshot k = some n') : ∃ installs, n' = { n with installs } := by
  simp only [RaftNode.examineSnapshot, Option.bind_eq_bind, Option.bind_eq_some_iff] at hs
  obtain ⟨handler, _, hs⟩ := hs
  split at hs
  · split at hs
    · cases hs
      exact ⟨_, rfl⟩
    · split at hs
      · cases hs
        exact ⟨_, rfl⟩
      · split at hs
        · obtain ⟨payload, _, rfl⟩ := Option.map_eq_some_iff.1 hs
          exact ⟨_, rfl⟩
        · cases hs
          exact ⟨_, rfl⟩
  · cases hs

theorem ensureSnapshotSender_eq (hs : n.ensureSnapshotSender config k = some n') :
    ∃ installs, n' = { n with installs } := by
  simp only [RaftNode.ensureSnapshotSender, Option.bind_eq_bind, Option.bind_eq_some_iff] at hs
  obtain ⟨handler, _, hs⟩ := hs
  split at hs
  · cases hs
    split <;> exact ⟨_, rfl⟩
  · cases hs

omit [DecidableEq ν] in
theorem storeSnapshot_eq (hs : n.storeSnapshot k = some n') :
    ∃ log snapshotFile installs, n' = { n with log, snapshotFile, installs } := by
  simp only [RaftNode.storeSnapshot, Option.bind_eq_bind, Option.bind_eq_some_iff] at hs
  obtain ⟨handler, _, hs⟩ := hs
  split at hs
  · split at hs <;> cases hs <;> exact ⟨_, _, _, rfl⟩
  · cases hs

omit [DecidableEq ν] in
theorem takeSnapshot_eq (hs : n.takeSnapshot = some n') : ∃ log snapshotFile, n' = { n with log, snapshotFile } := by
  simp only [RaftNode.takeSnapshot, Option.bind_eq_bind, Option.bind_eq_some_iff] at hs
  obtain ⟨term, _, hs⟩ := hs
  split at hs
  · split at hs
    · split at hs
      · cases hs
        exact ⟨_, _, rfl⟩
      · cases hs
    · cases hs
  · cases hs

omit [DecidableEq ν] in
theorem compact_eq {throughIndex : Nat} (hs : n.compact throughIndex = some n') : ∃ log, n' = { n with log } := by
  simp only [RaftNode.compact] at hs
  split at hs
  · cases hs
    exact ⟨_, rfl⟩
  · cases hs

omit [DecidableEq ν] in
/-- The next range is read, or counts as applied if nothing of it is retained. -/
theorem readCommitted_eq (hs : n.readCommitted = some n') :
    let startIndex := n.runtime.lastApplied + 1
    let endIndex := min n.runtime.commitIndex (startIndex + RaftNode.applyCommittedChunkEntries - 1)
    n.applyTask = .entries [] ∧ startIndex ≤ n.runtime.commitIndex ∧
      ∃ entries, n.log.entriesRange startIndex endIndex = .ok entries ∧
        ((entries = [] ∧ n' = { n with runtime := { n.runtime with lastApplied := endIndex } }) ∨
          n' = { n with applyTask := .entries entries }) := by
  simp only [RaftNode.readCommitted] at hs
  split at hs
  · rename_i htask
    split at hs
    · rename_i hle
      split at hs
      · cases hs
      · rename_i hrange
        cases hs
        exact ⟨htask, hle, [], hrange, .inl ⟨rfl, rfl⟩⟩
      · rename_i entries _ hrange
        cases hs
        exact ⟨htask, hle, entries, hrange, .inr rfl⟩
    · cases hs
  · cases hs

end LiveMutex.Raft
