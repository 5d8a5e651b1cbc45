/-
One vote in a term, and one leader of a term.

Both hold as long as what they rest on does. A vote stands while it is on disk;
the writes that clear it, when a membership comes into force, let a node vote a
second time (`one_vote_per_term`). And two elections of one term have a voter in
common if the memberships they are begun under make them have one, as those on
either side of one step of a change do; a membership is in force at a node from when
the node applies it, so of two candidates of one term one may count a majority of
the old peers and the other one of the new (`one_leader_per_term`).
-/
import LiveMutex.Raft.Votes

namespace LiveMutex.Raft

variable {ν α σ : Type} [DecidableEq ν] {config : ClusterConfig ν α σ} {c c' : Cluster ν α σ} {i : ν}
  {ev : Event ν α σ}

/-- A vote is on disk, or its term is over. -/
def RaftHardState.OnDisk (p : RaftHardState ν) (t : Nat) (v : ν) : Prop :=
  t < p.currentTerm ∨ t = p.currentTerm ∧ p.votedFor = some v

omit [DecidableEq ν] in
theorem RaftHardState.Keeps.onDisk {p p' : RaftHardState ν} {t : Nat} {v : ν} (h : p.Keeps p') (hd : p.OnDisk t v) :
    p'.OnDisk t v := by
  have hle := h.term
  rcases hd with hlt | ⟨rfl, hv⟩
  · exact .inl (by omega)
  · by_cases heq : p'.currentTerm = p.currentTerm
    · exact .inr ⟨heq.symm, h.vote heq v hv⟩
    · exact .inl (by omega)

/-- What is recorded of the votes is what the nodes have on disk and count. -/
structure VotesOk (c : Cluster ν α σ) : Prop where
  ballots : ∀ i, BallotOk (c.nodes i)
  onDisk : ∀ i t v, (i, t, v) ∈ c.voted → (c.nodes i).hardState.OnDisk t v
  unique : ∀ i t v w, (i, t, v) ∈ c.voted → (i, t, w) ∈ c.voted → v = w
  granted : ∀ m ∈ c.sent, ∀ b, Cluster.voteOf m = some b → b ∈ c.voted
  rounds : ∀ i, ∀ round ∈ (c.nodes i).elections, ∀ v ∈ round.votes, (v, round.term, i) ∈ c.voted

theorem votesOk_start : VotesOk (Cluster.start config) where
  ballots i := ⟨rfl, fun v hv => (by cases hv), fun w hw => (by cases hw)⟩
  onDisk i t v h := by cases h
  unique i t v w h := by cases h
  granted m h := by cases h
  rounds i round h := by cases h

variable [DecidableEq α] [DecidableEq σ]

/-- **A step keeps the votes**, if it takes none away from the disk. -/
theorem VotesOk.step (h : VotesOk c) (hkeep : (c.nodes i).clearsVote ev = false)
    (hs : c.step config i ev = some c') : VotesOk c' := by
  obtain ⟨n, out, hrecv, hn, rfl⟩ := Cluster.step_eq_some hs
  have hcast : Casts (config.node i) (c.nodes i) ev n out := step_casts (h.ballots i) hkeep hn
  -- a vote that was recorded is still on disk
  have hold : ∀ j t v, (j, t, v) ∈ c.voted → (Function.update c.nodes i n j).hardState.OnDisk t v := by
    intro j t v hv
    by_cases hj : j = i
    · subst hj
      rw [Function.update_self]
      exact hcast.keeps.onDisk (h.onDisk j t v hv)
    · rw [Function.update_of_ne hj]
      exact h.onDisk j t v hv
  -- a new one is what is on disk now
  have hnew : ∀ {j t v}, (j, t, v) ∈ Cluster.votedBy i (c.nodes i) out ev →
      j = i ∧ t = n.hardState.currentTerm ∧ n.hardState.votedFor = some v := by
    intro j t v hv
    exact hcast.given (j, t, v) hv
  have hsame : ∀ {j t v w}, (j, t, v) ∈ Cluster.votedBy i (c.nodes i) out ev → (j, t, w) ∈ c.voted → v = w := by
    intro j t v w hv hw
    obtain ⟨rfl, rfl, hvote⟩ := hnew hv
    have hd := hold j _ w hw
    rw [Function.update_self] at hd
    rcases hd with hlt | ⟨_, hw'⟩
    · omega
    · exact Option.some.inj (hvote.symm.trans hw')
  refine ⟨?_, ?_, ?_, ?_, ?_⟩
  · intro j
    show BallotOk (Function.update c.nodes i n j)
    by_cases hj : j = i
    · subst hj
      rw [Function.update_self]
      exact hcast.ballot
    · rw [Function.update_of_ne hj]
      exact h.ballots j
  · intro j t v hv
    rcases List.mem_append.1 hv with hv | hv
    · obtain ⟨rfl, hterm, hvote⟩ := hnew hv
      show (Function.update c.nodes j n j).hardState.OnDisk t v
      rw [Function.update_self]
      exact .inr ⟨hterm, hvote⟩
    · exact hold j t v hv
  · intro j t v w hv hw
    rcases List.mem_append.1 hv with hv | hv
    · rcases List.mem_append.1 hw with hw | hw
      · exact Option.some.inj ((hnew hv).2.2.symm.trans (hnew hw).2.2)
      · exact hsame hv hw
    · rcases List.mem_append.1 hw with hw | hw
      · exact (hsame hw hv).symm
      · exact h.unique j t v w hv hw
  · intro m hm b hb
    rcases List.mem_append.1 hm with hm | hm
    · exact List.mem_append_left _ (hcast.sent b (List.mem_filterMap.2 ⟨m, hm, hb⟩))
    · exact List.mem_append_right _ (h.granted m hm b hb)
  · intro j round hround v hv
    by_cases hj : j = i
    · subst hj
      simp only [Function.update_self] at hround
      rcases hcast.rounds round hround with ⟨rfl, rfl⟩ | ⟨r, hr, hterm, -, hvotes⟩
      · obtain rfl := List.mem_singleton.1 hv
        exact List.mem_append_left _ (List.mem_singleton.2 rfl)
      · rw [hterm]
        rcases hvotes v hv with hv | ⟨q, hq, hqt, hqc⟩
        · exact List.mem_append_right _ (h.rounds j r hr v hv)
        · have hg := h.granted _ (hrecv _ hq) _ rfl
          rw [hqt, hqc] at hg
          exact List.mem_append_right _ hg
    · simp only [ne_eq, hj, not_false_eq_true, Function.update_of_ne] at hround
      exact List.mem_append_right _ (h.rounds j round hround v hv)

/-! ## One vote in a term -/

/-- The runs in which no vote is taken away from the disk. -/
abbrev Cluster.ReachableKeepingVotes (config : ClusterConfig ν α σ) : Cluster ν α σ → Prop :=
  ReachableIf config fun c i ev => (c.nodes i).clearsVote ev = false

theorem Cluster.ReachableKeepingVotes.votesOk (h : Cluster.ReachableKeepingVotes config c) : VotesOk c := by
  induction h with
  | start => exact votesOk_start
  | step _ hok hs ih => exact ih.step hok hs

/-- **One vote per term.** In every run in which no forced write finds a vote of its
term on disk, no node gives its vote to two candidates of one term. -/
theorem one_vote_per_term (h : Cluster.ReachableKeepingVotes config c) {i : ν} {t : Nat} {v w : ν}
    (hv : (i, t, v) ∈ c.voted) (hw : (i, t, w) ∈ c.voted) : v = w :=
  h.votesOk.unique i t v w hv hw

/-- The runs of these sections change the membership of four or of five peers; what
the broker does is of no concern. -/
def quietCluster (peers : List Nat) : ClusterConfig Nat String Unit :=
  { peers, broker := (), handleRequest := fun _ _ => () }

/-- Node 2 asks for votes in term 1 and gets those of nodes 3 and 4. -/
theorem one_vote_per_term_election : ∃ c, Cluster.ReachableKeepingVotes (quietCluster [1, 2, 3, 4]) c ∧
    (4, 1, 2) ∈ c.voted ∧ ∀ v, (4, 1, v) ∈ c.voted → v = 2 := by
  have hrun : ((Cluster.start (quietCluster [1, 2, 3, 4])).run (quietCluster [1, 2, 3, 4])
      (fun c i ev => !(c.nodes i).clearsVote ev) (Cluster.electionEvents 2 [3, 4] ⟨1, 2, 0, 0⟩)).any (fun c =>
        decide ((4, 1, 2) ∈ c.voted)) = true := by
    decide +kernel
  obtain ⟨c, hc, hv⟩ := Cluster.exists_of_run .start hrun
  have hc : Cluster.ReachableKeepingVotes (quietCluster [1, 2, 3, 4]) c := hc.mono fun _ _ _ hok => by simpa using hok
  exact ⟨c, hc, of_decide_eq_true hv, fun v hv' => one_vote_per_term hc hv' (of_decide_eq_true hv)⟩

/-- The joint membership on the way from the first list of peers to the second, and
the second alone. -/
def jointEntry (oldPeers newPeers : List Nat) : RaftLogEntry (RaftCommand Nat String) :=
  ⟨2, 1, .setMembership (.joint oldPeers newPeers)⟩

def simpleEntry (newPeers : List Nat) : RaftLogEntry (RaftCommand Nat String) :=
  ⟨3, 1, .setMembership (.simple newPeers)⟩

/-- The leader of term 1 changes the membership, in the two steps it takes. The
change is replicated to `peers`, who do not learn that it is committed. -/
def membershipChangeRun (leader : Nat) (peers oldPeers newPeers : List Nat) : List (Nat × Event Nat String Unit) :=
  let first : AppendEntries Nat String := ⟨1, leader, 0, 0, [⟨1, 1, .noop⟩, jointEntry oldPeers newPeers], 0⟩
  let second : AppendEntries Nat String := ⟨1, leader, 2, 1, [simpleEntry newPeers], 0⟩
  [(leader, .proposeNoop), (leader, .appendProposal 0), (leader, .changeMembership newPeers),
   (leader, .appendProposal 0)] ++
  peers.flatMap (Cluster.batchEvents leader · first) ++
  Cluster.commitEvents leader 2 true ++ Cluster.applyEvents leader 3 ++
  [(leader, .changeMembership newPeers), (leader, .appendProposal 0)] ++
  peers.flatMap (Cluster.batchEvents leader · second) ++
  Cluster.commitEvents leader 3 false ++ Cluster.applyEvents leader 2

/-- Node 1 was removed and does not know. Node 4, which does not know either, votes
for it in term 2. Then node 2 becomes the leader of term 2, and node 4 learns from it
that the change is committed; it applies it, forgets its vote for node 1, and votes
for node 2. -/
def secondVoteRun : List (Nat × Event Nat String Unit) :=
  Cluster.electionEvents 2 [3, 4] ⟨1, 2, 0, 0⟩ ++ membershipChangeRun 2 [1, 3, 4] [1, 2, 3, 4] [2, 3, 4] ++
  [(1, .beginElection), (1, .readLastLogIndex 0), (1, .readLastLogTerm 0),
   (4, .handleRequestVote ⟨2, 1, 3, 1⟩ false), (4, .answerRequestVote 0), (2, .stepDown 1 none)] ++
  Cluster.electionEvents 2 [3] ⟨2, 2, 3, 1⟩ ++
  [(2, .replicate 4 8 3), (4, .prepareAppendEntries ⟨2, 2, 3, 1, [], 3⟩), (4, .checkPrevious 0),
   (4, .appendFromLeader 0), (4, .finishAppendEntries 0)] ++
  Cluster.applyEvents 4 6 ++ [(4, .handleRequestVote ⟨2, 2, 3, 1⟩ false), (4, .answerRequestVote 0)]

/-- Where a vote is taken away from the disk, node 4 votes twice in term 2. -/
theorem two_votes_secondVoteRun : ∃ c, Cluster.Reachable (quietCluster [1, 2, 3, 4]) c ∧
    (4, 2, 1) ∈ c.voted ∧ (4, 2, 2) ∈ c.voted := by
  have hrun : ((Cluster.start (quietCluster [1, 2, 3, 4])).run (quietCluster [1, 2, 3, 4]) (fun _ _ _ => true)
      secondVoteRun).any (fun c => decide ((4, 2, 1) ∈ c.voted ∧ (4, 2, 2) ∈ c.voted)) = true := by
    decide +kernel
  obtain ⟨c, hc, hv⟩ := Cluster.exists_of_run .start hrun
  exact ⟨c, hc.mono fun _ _ _ _ => trivial, of_decide_eq_true hv⟩

/-! ## One leader of a term -/

/-- Where an entry of the record of elections comes from: it was there, or the event
has ended a round that a quorum voted in. -/
theorem Cluster.mem_elected (hs : c.step config i ev = some c') {t : Nat} {j : ν} {membership : RaftMembership ν}
    (hmem : (t, j, membership) ∈ c'.elected) : (t, j, membership) ∈ c.elected ∨
      j = i ∧ ∃ round ∈ (c.nodes i).elections, round.term = t ∧ round.membership = membership ∧
        membership.quorumMet round.votes = true := by
  obtain ⟨n, out, -, hn, rfl⟩ := Cluster.step_eq_some hs
  rcases List.mem_append.1 hmem with hnew | hold
  · cases ev with
    | becomeLeader k =>
      obtain ⟨n', hn', -⟩ := Option.map_eq_some_iff.1 hn
      obtain ⟨round, _, hk, hq, _⟩ := becomeLeader_eq hn'
      simp only [Cluster.electedBy, hk, Option.toList_some, List.map_cons, List.map_nil, List.mem_singleton,
        Prod.mk.injEq] at hnew
      obtain ⟨rfl, rfl, rfl⟩ := hnew
      exact .inr ⟨rfl, round, List.mem_of_getElem? hk, rfl, rfl, hq⟩
    | _ => cases hnew
  · exact .inl hold

/-- Behind every election that was won are the votes of a quorum. -/
def ElectedOk (c : Cluster ν α σ) : Prop :=
  ∀ t i membership, (t, i, membership) ∈ c.elected →
    ∃ ids, membership.quorumMet ids = true ∧ ∀ v ∈ ids, (v, t, i) ∈ c.voted

theorem ElectedOk.step (h : ElectedOk c) (hv : VotesOk c) (hs : c.step config i ev = some c') : ElectedOk c' := by
  have hvoted : ∀ b ∈ c.voted, b ∈ c'.voted := by
    obtain ⟨n, out, -, -, rfl⟩ := Cluster.step_eq_some hs
    exact fun b hb => List.mem_append_right _ hb
  intro t j membership hmem
  rcases Cluster.mem_elected hs hmem with hold | ⟨rfl, round, hround, rfl, rfl, hq⟩
  · obtain ⟨ids, hq, hids⟩ := h t j membership hold
    exact ⟨ids, hq, fun v hv => hvoted _ (hids v hv)⟩
  · exact ⟨round.votes, hq, fun v hmem => hvoted _ (hv.rounds _ round hround v hmem)⟩

theorem Cluster.ReachableKeepingVotes.electedOk (h : Cluster.ReachableKeepingVotes config c) : ElectedOk c := by
  induction h with
  | start => exact fun t i membership hmem => (by cases hmem)
  | step hc hok hs ih => exact ih.step (votesOk hc) hs

/-- An election is begun under one of the memberships that `ballots` has for its term. -/
def Cluster.beginsUnder (ballots : Nat → List (RaftMembership ν)) (c : Cluster ν α σ) (i : ν) : Event ν α σ → Bool
  | .beginElection => (c.nodes i).runtime.membership ∈ ballots ((c.nodes i).runtime.currentTerm + 1)
  | _ => true

/-- The runs in which votes stay on disk, and elections are begun under these
memberships. -/
abbrev Cluster.ReachableUnder (config : ClusterConfig ν α σ) (ballots : Nat → List (RaftMembership ν)) :
    Cluster ν α σ → Prop :=
  ReachableIf config fun c i ev => (c.nodes i).clearsVote ev = false ∧ c.beginsUnder ballots i ev = true

variable {ballots : Nat → List (RaftMembership ν)}

theorem Cluster.ReachableUnder.keepingVotes (h : Cluster.ReachableUnder config ballots c) :
    Cluster.ReachableKeepingVotes config c := h.mono fun _ _ _ hok => hok.1

/-- Every election that is under way, and every one that was won, was begun under a
membership of its term. -/
theorem Cluster.ReachableUnder.begun (h : Cluster.ReachableUnder config ballots c) :
    (∀ i, ∀ round ∈ (c.nodes i).elections, round.membership ∈ ballots round.term) ∧
      ∀ t i membership, (t, i, membership) ∈ c.elected → membership ∈ ballots t := by
  induction h with
  | start => exact ⟨fun i round hmem => (by cases hmem), fun t i membership hmem => (by cases hmem)⟩
  | @step c c' i ev hc hok hs ih =>
    obtain ⟨hrounds, helected⟩ := ih
    refine ⟨fun j round hround => ?_, fun t j membership hmem => ?_⟩
    · obtain ⟨n, out, -, hn, rfl⟩ := Cluster.step_eq_some hs
      by_cases hj : j = i
      · subst hj
        simp only [Function.update_self] at hround
        have hcast := step_casts ((keepingVotes hc).votesOk.ballots j) hok.1 hn
        rcases hcast.rounds round hround with ⟨rfl, rfl⟩ | ⟨r, hr, hterm, hmembership, -⟩
        · exact of_decide_eq_true hok.2
        · rw [hterm, hmembership]
          exact hrounds j r hr
      · simp only [ne_eq, hj, not_false_eq_true, Function.update_of_ne] at hround
        exact hrounds j round hround
    · rcases Cluster.mem_elected hs hmem with hold | ⟨rfl, round, hround, rfl, rfl, -⟩
      · exact helected t j membership hold
      · exact hrounds _ round hround

/-- **One leader per term.** In every run in which no vote is taken away from the
disk and the memberships that the elections of a term are begun under have meeting
quorums, at most one node becomes the leader of a term. -/
theorem one_leader_per_term (hmeet : ∀ t, ∀ m ∈ ballots t, ∀ m' ∈ ballots t, m.Meets m')
    (h : Cluster.ReachableUnder config ballots c) {t : Nat} {i j : ν} {membership membership' : RaftMembership ν}
    (hi : (t, i, membership) ∈ c.elected) (hj : (t, j, membership') ∈ c.elected) : i = j := by
  have hvotes := h.keepingVotes
  obtain ⟨ids, hq, hids⟩ := hvotes.electedOk t i membership hi
  obtain ⟨ids', hq', hids'⟩ := hvotes.electedOk t j membership' hj
  obtain ⟨v, hv, hv'⟩ := hmeet t _ (h.begun.2 _ _ _ hi) _ (h.begun.2 _ _ _ hj) ids ids' hq hq'
  exact hvotes.votesOk.unique v t i j (hids v hv) (hids' v hv')

/-- Node 1 leads term 1, which all five peers have entered. The membership goes from
the five to three, and node 1 leads term 2 with the vote of one of the three. -/
def fewerPeersRun : List (Nat × Event Nat String Unit) :=
  Cluster.electionEvents 1 [2, 3] ⟨1, 1, 0, 0⟩ ++
  [4, 5].flatMap (fun v => [(v, .handleRequestVote ⟨1, 1, 0, 0⟩ false), (v, .answerRequestVote 0)]) ++
  membershipChangeRun 1 [2, 3] [1, 2, 3, 4, 5] [1, 2, 3] ++
  [(1, .stepDown 1 none)] ++ Cluster.electionEvents 1 [2] ⟨2, 1, 3, 1⟩

/-- Term 1 is voted on before the change is over, later terms when it has begun. -/
def fewerPeersBallots (t : Nat) : List (RaftMembership Nat) :=
  if t = 1 then [.joint [1, 2, 3, 4, 5] [1, 2, 3], .simple [1, 2, 3, 4, 5]]
  else [.joint [1, 2, 3, 4, 5] [1, 2, 3], .simple [1, 2, 3]]

theorem fewerPeersRun_reachable : ∃ c, Cluster.ReachableUnder (quietCluster [1, 2, 3, 4, 5]) fewerPeersBallots c ∧
    (2, 1, .simple [1, 2, 3]) ∈ c.elected := by
  have hrun : ((Cluster.start (quietCluster [1, 2, 3, 4, 5])).run (quietCluster [1, 2, 3, 4, 5])
      (fun c i ev => !(c.nodes i).clearsVote ev && c.beginsUnder fewerPeersBallots i ev) fewerPeersRun).any (fun c =>
        decide ((2, 1, .simple [1, 2, 3]) ∈ c.elected)) = true := by
    decide +kernel
  obtain ⟨c, hc, he⟩ := Cluster.exists_of_run .start hrun
  exact ⟨c, hc.mono fun c i ev hok => by simpa using hok, of_decide_eq_true he⟩

theorem one_leader_per_term_fewerPeersRun : ∃ c,
    Cluster.ReachableUnder (quietCluster [1, 2, 3, 4, 5]) fewerPeersBallots c ∧
    (2, 1, .simple [1, 2, 3]) ∈ c.elected ∧ ∀ j membership, (2, j, membership) ∈ c.elected → j = 1 := by
  obtain ⟨c, hc, he⟩ := fewerPeersRun_reachable
  refine ⟨c, hc, he, fun j membership hj => one_leader_per_term (fun t => ?_) hc hj he⟩
  unfold fewerPeersBallots
  split
  · exact RaftMembership.meets_of_step (RaftMembership.joint_meets_old _ _)
  · exact RaftMembership.meets_of_step (RaftMembership.joint_meets_new _ _)

/-- **Behind every leader is a quorum on disk**: whoever won an election, the votes of a
quorum for it are in the voters' hard states, unless a later term is. -/
theorem elected_on_disk (h : Cluster.ReachableKeepingVotes config c) {t : Nat} {i : ν} {membership : RaftMembership ν}
    (hi : (t, i, membership) ∈ c.elected) :
    ∃ ids, membership.quorumMet ids = true ∧ ∀ v ∈ ids, (c.nodes v).hardState.OnDisk t i := by
  obtain ⟨ids, hq, hids⟩ := h.electedOk t i membership hi
  exact ⟨ids, hq, fun v hmem => h.votesOk.onDisk v t i (hids v hmem)⟩

theorem elected_on_disk_fewerPeersRun : ∃ c, Cluster.ReachableKeepingVotes (quietCluster [1, 2, 3, 4, 5]) c ∧
    ∃ ids, (RaftMembership.simple [1, 2, 3]).quorumMet ids = true ∧ ∀ v ∈ ids, (c.nodes v).hardState.OnDisk 2 1 := by
  obtain ⟨c, hc, he⟩ := fewerPeersRun_reachable
  exact ⟨c, hc.keepingVotes, elected_on_disk hc.keepingVotes he⟩

/-- Node 3 has the change in its log and has not applied it: it becomes the leader of
term 2 too, with the votes of nodes 4 and 5, which are in term 1 as it is and so
can have answered its pre-vote. -/
theorem two_leaders_fewerPeersRun : ∃ c, Cluster.Reachable (quietCluster [1, 2, 3, 4, 5]) c ∧
    (2, 1, .simple [1, 2, 3]) ∈ c.elected ∧ (2, 3, .simple [1, 2, 3, 4, 5]) ∈ c.elected ∧
    ((c.nodes 1).runtime.role = .leader ∧ (c.nodes 1).runtime.currentTerm = 2) ∧
    (c.nodes 3).runtime.role = .leader ∧ (c.nodes 3).runtime.currentTerm = 2 := by
  have hrun : ((Cluster.start (quietCluster [1, 2, 3, 4, 5])).run (quietCluster [1, 2, 3, 4, 5]) (fun _ _ _ => true)
      (fewerPeersRun ++ Cluster.electionEvents 3 [4, 5] ⟨2, 3, 3, 1⟩)).any (fun c =>
        decide ((2, 1, .simple [1, 2, 3]) ∈ c.elected ∧ (2, 3, .simple [1, 2, 3, 4, 5]) ∈ c.elected ∧
          ((c.nodes 1).runtime.role = .leader ∧ (c.nodes 1).runtime.currentTerm = 2) ∧
          (c.nodes 3).runtime.role = .leader ∧ (c.nodes 3).runtime.currentTerm = 2)) = true := by
    decide +kernel
  obtain ⟨c, hc, he⟩ := Cluster.exists_of_run .start hrun
  exact ⟨c, hc.mono fun _ _ _ _ => trivial, of_decide_eq_true he⟩

end LiveMutex.Raft
