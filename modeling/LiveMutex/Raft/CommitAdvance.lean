/-
How far a leader commits. `advance_leader_commit_from_progress` tries only indexes that
are the leader's last one or the match index of a peer, from the greatest down, and
skips those of other terms. `advance_exact`: it commits the greatest index of the
leader's term that a quorum has, all the same. For whatever index a quorum has, the
least match index at or above it is tried too, the same nodes have that one, and its
term is the same, terms not going down along the log.

Match indexes above the leader's own last index are not trusted. Nodes that are not
members (learners) have a match index too, and only add candidates.
-/
import Mathlib.Data.List.Dedup
import LiveMutex.Lib.Vec
import LiveMutex.Raft.Node

namespace LiveMutex.Raft

variable {ν α σ : Type} [DecidableEq ν]

def trustedPeerMatchIndex (progress : RaftPeerProgress) (localLastIndex : Nat) : Option Nat :=
  if progress.matchIndex ≤ localLastIndex then some progress.matchIndex else none

namespace RaftNode

section

variable (config : BrokerRaftConfig ν α σ) (n : RaftNode ν α σ)

/-- The leader, and the peers whose match index is trusted, with their indexes; `peers` are the keys of
`leader_progress`. -/
def matched (peers : List ν) : List (ν × Nat) :=
  (config.nodeId, n.log.lastIndex) :: peers.filterMap fun peer =>
    (n.runtime.leaderProgress peer).bind fun progress =>
      (trustedPeerMatchIndex progress n.log.lastIndex).map fun matchIndex => (peer, matchIndex)

/-- The indexes that are tried, greatest first. -/
def commitCandidates (peers : List ν) : List Nat :=
  (Vec.sortDedup (((n.matched config peers).map (·.2)).filter fun matchIndex =>
    n.runtime.commitIndex < matchIndex && matchIndex ≤ n.log.lastIndex)).reverse

/-- Who is known to have the candidate. -/
def ackIds (peers : List ν) (candidate : Nat) : List ν :=
  ((n.matched config peers).filter fun m => candidate ≤ m.2).map (·.1)

/-- `commit_leader_index_in_term` with nothing in between, up to applying what is committed: the node and whether the
index is committed, or `none` if the hard state is not written. -/
def commitLeaderIndexInTerm (index term : Nat) : Option (RaftNode ν α σ × Bool) :=
  let rt := n.runtime
  let hasQuorum (n : RaftNode ν α σ) : Bool :=
    n.runtime.membership.quorumMet (n.matchedIdsForIndex config n.runtime.membership index)
  if n.log.termAtIndex index ≠ some term then some (n, false)
  else if rt.role ≠ .leader ∨ rt.currentTerm ≠ term then some (n, false)
  else if index ≤ rt.commitIndex then some (n, true)
  else if !hasQuorum n then some (n, false)
  else do
    let n ← n.writeHardState ⟨rt.currentTerm, rt.votedFor, index⟩
    -- the check once more, after the write
    if n.runtime.role ≠ .leader ∨ n.runtime.currentTerm ≠ term ∨ !hasQuorum n then some (n.syncCommit, false)
    else some ({ n with runtime := { n.runtime with commitIndex := max n.runtime.commitIndex index } }, true)

def advanceLeaderCommitFromProgress (peers : List ν) : Option (RaftNode ν α σ × Option Nat) :=
  if n.runtime.role ≠ .leader then some (n, none)
  else
    match (n.commitCandidates config peers).find? fun candidate =>
      n.log.termAtIndex candidate = some n.runtime.currentTerm &&
        n.runtime.membership.quorumMet (n.ackIds config peers candidate) with
    | none => some (n, none)
    | some candidate =>
      (n.commitLeaderIndexInTerm config candidate n.runtime.currentTerm).map fun r =>
        (r.1, if r.2 then some candidate else none)

/-- The leader, and the peers whose match index lies between `index` and the leader's last one. -/
def haveIndex (peers : List ν) (index : Nat) : List ν :=
  config.nodeId :: peers.filter fun peer => (n.runtime.leaderProgress peer).any fun progress =>
    index ≤ progress.matchIndex && progress.matchIndex ≤ n.log.lastIndex

/-- The index may be committed: it is not yet, its entry has the leader's term, and a quorum has it. -/
structure Committable (peers : List ν) (index : Nat) : Prop where
  fresh : n.runtime.commitIndex < index
  le_last : index ≤ n.log.lastIndex
  term : n.log.termAtIndex index = some n.runtime.currentTerm
  quorum : n.runtime.membership.quorumMet (n.haveIndex config peers index) = true

end

end RaftNode

/-- Only who is in the list matters for a quorum. -/
theorem RaftMembership.quorumMet_congr {m : RaftMembership ν} {a b : List ν}
    (h : ∀ v, m.containsId v = true → (v ∈ a ↔ v ∈ b)) : m.quorumMet a = m.quorumMet b := by
  have hvotes : ∀ peers : List ν, (∀ v ∈ peers, (v ∈ a ↔ v ∈ b)) → peerVotes peers a = peerVotes peers b := by
    intro peers hp
    unfold peerVotes
    exact List.countP_congr fun v hv => by simpa using hp v hv
  cases m with
  | simple peers =>
    have := hvotes peers fun v hv => h v (by simpa [containsId] using hv)
    simp only [quorumMet, this]
  | joint oldPeers newPeers =>
    have ho := hvotes oldPeers fun v hv => h v (by simp [containsId, hv])
    have hn := hvotes newPeers fun v hv => h v (by simp [containsId, hv])
    simp only [quorumMet, ho, hn]

namespace RaftNode

variable {config : BrokerRaftConfig ν α σ} {n : RaftNode ν α σ} {peers : List ν} {index : Nat}

omit [DecidableEq ν] in
theorem mem_matched {v : ν} {m : Nat} : (v, m) ∈ n.matched config peers ↔
    v = config.nodeId ∧ m = n.log.lastIndex ∨
      v ∈ peers ∧ ∃ progress, n.runtime.leaderProgress v = some progress ∧ progress.matchIndex = m ∧
        m ≤ n.log.lastIndex := by
  simp only [matched, List.mem_cons, Prod.mk.injEq, List.mem_filterMap, Option.bind_eq_some_iff,
    Option.map_eq_some_iff, trustedPeerMatchIndex]
  refine or_congr_right ?_
  constructor
  · rintro ⟨peer, hp, progress, hprog, m', hm', rfl, rfl⟩
    split at hm'
    · rename_i hle
      obtain rfl := Option.some.inj hm'
      exact ⟨hp, progress, hprog, rfl, hle⟩
    · cases hm'
  · rintro ⟨hp, progress, hprog, rfl, hle⟩
    exact ⟨v, hp, progress, hprog, _, by rw [if_pos hle], rfl, rfl⟩

omit [DecidableEq ν] in
theorem mem_ackIds {v : ν} : v ∈ n.ackIds config peers index ↔ ∃ m, (v, m) ∈ n.matched config peers ∧ index ≤ m := by
  simp only [ackIds, List.mem_map, List.mem_filter, decide_eq_true_eq, Prod.exists, exists_and_right, exists_eq_right]

omit [DecidableEq ν] in
theorem mem_haveIndex (hi : index ≤ n.log.lastIndex) {v : ν} :
    v ∈ n.haveIndex config peers index ↔ v ∈ n.ackIds config peers index := by
  rw [mem_ackIds]
  simp only [haveIndex, List.mem_cons, List.mem_filter, Option.any_eq_true, Bool.and_eq_true, decide_eq_true_eq,
    mem_matched]
  constructor
  · rintro (rfl | ⟨hv, progress, hprog, hlo, hhi⟩)
    · exact ⟨_, .inl ⟨rfl, rfl⟩, hi⟩
    · exact ⟨_, .inr ⟨hv, progress, hprog, rfl, hhi⟩, hlo⟩
  · rintro ⟨m, ⟨rfl, rfl⟩ | ⟨hv, progress, hprog, rfl, hhi⟩, hlo⟩
    · exact .inl rfl
    · exact .inr ⟨hv, progress, hprog, hlo, hhi⟩

theorem quorumMet_haveIndex (m : RaftMembership ν) (hi : index ≤ n.log.lastIndex) :
    m.quorumMet (n.haveIndex config peers index) = m.quorumMet (n.ackIds config peers index) :=
  RaftMembership.quorumMet_congr fun _ _ => mem_haveIndex hi

/-- The check of the commit counts the same nodes. -/
theorem quorumMet_matchedIdsForIndex (m : RaftMembership ν) (hi : index ≤ n.log.lastIndex)
    (hpeers : ∀ peer, n.runtime.leaderProgress peer ≠ none → peer ∈ peers) :
    m.quorumMet (n.matchedIdsForIndex config m index) = m.quorumMet (n.haveIndex config peers index) := by
  refine RaftMembership.quorumMet_congr fun v hv => ?_
  have hactive : v ∈ m.activePeers := by
    cases m <;> simpa [RaftMembership.activePeers, RaftMembership.containsId, List.mem_dedup] using hv
  simp only [matchedIdsForIndex, haveIndex, List.mem_filter, List.mem_cons, hactive, true_and]
  by_cases hself : v = config.nodeId
  · simp [hself, hi]
  · simp only [hself, if_false, false_or, Option.any_eq_true, Bool.and_eq_true, decide_eq_true_eq]
    constructor
    · intro ⟨progress, hprog, hlast, hmatch⟩
      exact ⟨hpeers v (by rw [hprog]; exact Option.some_ne_none _), progress, hprog, hmatch, hlast⟩
    · intro ⟨_, progress, hprog, hmatch, hlast⟩
      exact ⟨progress, hprog, hlast, hmatch⟩

omit [DecidableEq ν] in
/-- A candidate is the match index of somebody. -/
theorem mem_commitCandidates {c : Nat} : c ∈ n.commitCandidates config peers ↔
    (∃ v, (v, c) ∈ n.matched config peers) ∧ n.runtime.commitIndex < c ∧ c ≤ n.log.lastIndex := by
  simp [commitCandidates, Vec.mem_sortDedup]

/-- **No better index is missed**: at or above an index that may be committed there is a candidate that may be. -/
theorem Committable.candidate (h : n.Committable config peers index) (hlog : n.log.Valid)
    (hmono : ∀ i j t u, i ≤ j → n.log.termAtIndex i = some t → n.log.termAtIndex j = some u → t ≤ u)
    (hterm : ∀ i t, n.log.termAtIndex i = some t → t ≤ n.runtime.currentTerm) :
    ∃ c ∈ n.commitCandidates config peers, index ≤ c ∧ n.log.termAtIndex c = some n.runtime.currentTerm ∧
      n.runtime.membership.quorumMet (n.ackIds config peers c) = true := by
  -- the least match index from `index` on
  have hex : ∃ c, (∃ v, (v, c) ∈ n.matched config peers) ∧ index ≤ c :=
    ⟨n.log.lastIndex, ⟨config.nodeId, mem_matched.2 (.inl ⟨rfl, rfl⟩)⟩, h.le_last⟩
  classical
  obtain ⟨c, ⟨hmatch, hle⟩, hleast⟩ : ∃ c, ((∃ v, (v, c) ∈ n.matched config peers) ∧ index ≤ c) ∧
      ∀ m, (∃ v, (v, m) ∈ n.matched config peers) ∧ index ≤ m → c ≤ m :=
    ⟨Nat.find hex, Nat.find_spec hex, fun _ => Nat.find_min' hex⟩
  have hlast : c ≤ n.log.lastIndex := by
    obtain ⟨v, hv⟩ := hmatch
    rcases mem_matched.1 hv with ⟨_, rfl⟩ | ⟨_, _, _, _, hle⟩
    · exact le_rfl
    · exact hle
  have hfresh := h.fresh
  refine ⟨c, mem_commitCandidates.2 ⟨hmatch, by omega, hlast⟩, hle, ?_, ?_⟩
  · obtain ⟨t, ht⟩ := hlog.termAtIndex_known_from (by omega) h.term hle hlast
    rw [ht, le_antisymm (hterm c t ht) (hmono index c _ t hle h.term ht)]
  · -- the same nodes have it
    rw [← h.quorum, quorumMet_haveIndex _ h.le_last]
    refine RaftMembership.quorumMet_congr fun v _ => ?_
    rw [mem_ackIds, mem_ackIds]
    constructor
    · intro ⟨m, hm, hcm⟩
      exact ⟨m, hm, hle.trans hcm⟩
    · intro ⟨m, hm, him⟩
      exact ⟨m, hm, hleast m ⟨⟨v, hm⟩, him⟩⟩

/-- What may be committed is, once the hard state is written. -/
theorem Committable.commits (h : n.Committable config peers index) (hrole : n.runtime.role = .leader)
    (hpeers : ∀ peer, n.runtime.leaderProgress peer ≠ none → peer ∈ peers) :
    n.commitLeaderIndexInTerm config index n.runtime.currentTerm =
      (n.writeHardState ⟨n.runtime.currentTerm, n.runtime.votedFor, index⟩).map fun n' =>
        ({ n' with runtime := { n'.runtime with commitIndex := index } }, true) := by
  have hquorum : n.runtime.membership.quorumMet (n.matchedIdsForIndex config n.runtime.membership index) = true := by
    rw [quorumMet_matchedIdsForIndex _ h.le_last hpeers]
    exact h.quorum
  have hfresh := h.fresh
  have hmax : max n.runtime.commitIndex index = index := by omega
  unfold commitLeaderIndexInTerm
  dsimp only
  rw [if_neg (not_not.2 h.term), if_neg (by simp [hrole]), if_neg (by omega), if_neg (by simp [hquorum])]
  unfold writeHardState
  cases n.hardState.write .preserveSameTermVote ⟨n.runtime.currentTerm, n.runtime.votedFor, index⟩ with
  | none => rfl
  | some hardState =>
    have hquorum' : n.runtime.membership.quorumMet
        (({ n with hardState } : RaftNode ν α σ).matchedIdsForIndex config n.runtime.membership index) = true := hquorum
    simp [hrole, hquorum', hmax]

/-- **The leader's commit is exact.** On a log whose terms do not go down and are at most the leader's, the leader
commits the greatest index that may be committed, writing it to disk first, and nothing if there is none. -/
theorem advanceLeaderCommitFromProgress_exact (hrole : n.runtime.role = .leader) (hlog : n.log.Valid)
    (hmono : ∀ i j t u, i ≤ j → n.log.termAtIndex i = some t → n.log.termAtIndex j = some u → t ≤ u)
    (hterm : ∀ i t, n.log.termAtIndex i = some t → t ≤ n.runtime.currentTerm)
    (hpeers : ∀ peer, n.runtime.leaderProgress peer ≠ none → peer ∈ peers) :
    (∀ index, n.Committable config peers index → (∀ i, n.Committable config peers i → i ≤ index) →
      n.advanceLeaderCommitFromProgress config peers =
        (n.writeHardState ⟨n.runtime.currentTerm, n.runtime.votedFor, index⟩).map fun n' =>
          ({ n' with runtime := { n'.runtime with commitIndex := index } }, some index)) ∧
    ((∀ index, ¬n.Committable config peers index) →
      n.advanceLeaderCommitFromProgress config peers = some (n, none)) := by
  have hcommittable : ∀ c, c ∈ n.commitCandidates config peers → n.log.termAtIndex c = some n.runtime.currentTerm →
      n.runtime.membership.quorumMet (n.ackIds config peers c) = true → n.Committable config peers c := by
    intro c hc ht hq
    obtain ⟨_, hfresh, hlast⟩ := mem_commitCandidates.1 hc
    exact ⟨hfresh, hlast, ht, by rw [quorumMet_haveIndex _ hlast]; exact hq⟩
  unfold advanceLeaderCommitFromProgress
  rw [if_neg (not_not.2 hrole)]
  split
  · -- no candidate passes
    rename_i hnone
    refine ⟨fun index h _ => ?_, fun _ => rfl⟩
    obtain ⟨c, hc, _, ht, hq⟩ := h.candidate hlog hmono hterm
    have hno := List.find?_eq_none.1 hnone c hc
    simp [ht, hq] at hno
  · rename_i c hfind
    obtain ⟨_, hpass, hmost⟩ := Vec.find?_reverse_sortDedup hfind
    have hc := List.mem_of_find?_eq_some hfind
    simp only [Bool.and_eq_true, decide_eq_true_eq] at hpass
    have hcommit := hcommittable c hc hpass.1 hpass.2
    refine ⟨fun index h hgreatest => ?_, fun hno => absurd hcommit (hno c)⟩
    obtain ⟨c', hc', hle, ht, hq⟩ := h.candidate hlog hmono hterm
    have hc'c : c' ≤ c := hmost c' (Vec.mem_sortDedup.1 (List.mem_reverse.1 hc')) (by simp [ht, hq])
    obtain rfl : c = index := le_antisymm (hgreatest c hcommit) (hle.trans hc'c)
    rw [hcommit.commits hrole hpeers, Option.map_map]
    rfl

end RaftNode

namespace Sample

def leaderConfig : BrokerRaftConfig Nat Unit Unit := ⟨0, [0, 1, 2], (), fun _ broker => broker, 8192⟩

/-- A leader of term 2 with four entries: peer 1 has three of them, peer 2 reports more than there are, and node 7,
which is no member, has two. -/
def leader : RaftNode Nat Unit Unit :=
  { RaftNode.fresh leaderConfig with
    hardState := ⟨2, some 0, 1⟩
    log := { retainedLogEntries := [⟨1, 1, .noop⟩, ⟨2, 2, .noop⟩, ⟨3, 2, .noop⟩, ⟨4, 2, .noop⟩] }
    runtime :=
      { (RaftNode.fresh leaderConfig).runtime with
        currentTerm := 2, votedFor := some 0, role := .leader, commitIndex := 1
        leaderProgress := fun peer =>
          if peer = 1 then some ⟨4, 3⟩ else if peer = 2 then some ⟨10, 9⟩ else if peer = 7 then some ⟨3, 2⟩ else none } }

end Sample

namespace RaftNode

/-- It commits the third. -/
theorem advanceLeaderCommitFromProgress_third :
    (Sample.leader.advanceLeaderCommitFromProgress Sample.leaderConfig [1, 2, 7]).map
      (fun r => (r.1.runtime.commitIndex, r.2)) = some (3, some 3) := by
  have hboundary : ∀ e ∈ Sample.leader.log.retainedLogEntries.head?, e.index = 1 := by decide
  have hlog : Sample.leader.log.Valid := ⟨by decide, by decide, by decide, hboundary, by decide⟩
  have hknown : ∀ {i t}, Sample.leader.log.termAtIndex i = some t → i ≤ 4 := fun h => hlog.le_lastIndex_of_known h
  have hmono : ∀ i ≤ 4, ∀ j ≤ 4, i ≤ j → ∀ t ∈ Sample.leader.log.termAtIndex i,
      ∀ u ∈ Sample.leader.log.termAtIndex j, t ≤ u := by decide
  have hterm : ∀ i ≤ 4, ∀ t ∈ Sample.leader.log.termAtIndex i, t ≤ Sample.leader.runtime.currentTerm := by decide
  have hpeers : ∀ peer, Sample.leader.runtime.leaderProgress peer ≠ none → peer ∈ [1, 2, 7] := by
    intro peer hpeer
    simp only [Sample.leader] at hpeer
    split at hpeer
    · simp_all
    · split at hpeer <;> simp_all
  have hthird : Sample.leader.Committable Sample.leaderConfig [1, 2, 7] 3 :=
    ⟨by decide, by decide, by decide, by decide⟩
  have hgreatest : ∀ i, Sample.leader.Committable Sample.leaderConfig [1, 2, 7] i → i ≤ 3 := by
    intro i hi
    have hle : i ≤ 4 := hi.le_last
    by_cases h4 : i = 4
    · have hquorum := hi.quorum
      rw [h4] at hquorum
      exact absurd hquorum (by decide)
    · omega
  rw [(advanceLeaderCommitFromProgress_exact rfl hlog
    (fun i j t u hij ht hu => hmono i (hknown ht) j (hknown hu) hij t ht u hu)
    (fun i t ht => hterm i (hknown ht) t ht) hpeers).1 3 hthird hgreatest]
  decide

end RaftNode

end LiveMutex.Raft
