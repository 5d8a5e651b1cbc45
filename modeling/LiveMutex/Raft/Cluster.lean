/-
The cluster: nodes that were configured with the same peers, and every message
that was ever sent.

A message stays where it is: it may be received at any time, by anyone it fits,
any number of times, or never. That covers loss, delay, duplication and
reordering. A crash is a node's `restart`; what the node did between its last
write to disk and the crash is what a run leaves out.

Four records are kept that no node reads: which entries each node had in its log
and which command it applied at which index, over all its lives, whom it voted for
in which term, and who became leader of which term.
-/
import LiveMutex.Raft.Node

namespace LiveMutex.Raft

variable {ν α σ : Type} [DecidableEq ν] [DecidableEq α] [DecidableEq σ]

/-- What the nodes have in common. -/
structure ClusterConfig (ν α σ : Type) where
  peers : List ν
  broker : σ
  handleRequest : α → σ → σ
  clientResponseCacheMaxEntries : Nat := 8192

def ClusterConfig.node (config : ClusterConfig ν α σ) (nodeId : ν) : BrokerRaftConfig ν α σ :=
  ⟨nodeId, config.peers, config.broker, config.handleRequest, config.clientResponseCacheMaxEntries⟩

structure Cluster (ν α σ : Type) where
  nodes : ν → RaftNode ν α σ
  sent : List (Message ν α σ)
  /-- Every entry a node had in its log. -/
  stored : List (ν × RaftLogEntry (RaftCommand ν α))
  /-- Every application of an entry: where, at which index, which command. -/
  applied : List (ν × Nat × RaftCommand ν α)
  /-- Every vote that was given, a candidate's own included: by whom, in which term,
  for whom. -/
  voted : List (ν × Nat × ν)
  /-- Every election that was won: the term, the winner, and the membership it was
  held under. -/
  elected : List (Nat × ν × RaftMembership ν)

namespace Cluster

/-- What an event adds to the record of applications. -/
def appliedBy (i : ν) (n : RaftNode ν α σ) : Event ν α σ → List (ν × Nat × RaftCommand ν α)
  | .applyNext =>
    match n.applyTask with
    | .entries (entry :: _) =>
      match entry.command with
      | .setMembership _ => []
      | command => [(i, entry.index, command)]
    | .changing ⟨_, none⟩ (entry :: _) => [(i, entry.index, entry.command)]
    | _ => []
  | _ => []

/-- The vote a message gives. -/
def voteOf : Message ν α σ → Option (ν × Nat × ν)
  | .voteGranted voter r => some (voter, r.term, r.candidateId)
  | _ => none

/-- What an event adds to the record of votes. -/
def votedBy (i : ν) (n : RaftNode ν α σ) (out : List (Message ν α σ)) : Event ν α σ → List (ν × Nat × ν)
  | .beginElection => [(i, n.runtime.currentTerm + 1, i)]
  | _ => out.filterMap voteOf

/-- What an event adds to the record of elections. -/
def electedBy (i : ν) (n : RaftNode ν α σ) : Event ν α σ → List (Nat × ν × RaftMembership ν)
  | .becomeLeader k => n.elections[k]?.toList.map fun round => (round.term, i, round.membership)
  | _ => []

/-- One event at one node. -/
def step (config : ClusterConfig ν α σ) (c : Cluster ν α σ) (i : ν) (ev : Event ν α σ) : Option (Cluster ν α σ) :=
  if ev.received.all (· ∈ c.sent) then
    ((c.nodes i).step (config.node i) ev).map fun (n, out) =>
      { nodes := Function.update c.nodes i n
        sent := out ++ c.sent
        stored := n.log.retainedLogEntries.map (i, ·) ++ c.stored
        applied := appliedBy i (c.nodes i) ev ++ c.applied
        voted := votedBy i (c.nodes i) out ev ++ c.voted
        elected := electedBy i (c.nodes i) ev ++ c.elected }
  else none

/-- **What a step is**: an event of one node, that has what it reacts to. -/
theorem step_eq_some {config : ClusterConfig ν α σ} {c c' : Cluster ν α σ} {i : ν} {ev : Event ν α σ}
    (hs : c.step config i ev = some c') :
    ∃ n out, (∀ m, ev.received = some m → m ∈ c.sent) ∧ (c.nodes i).step (config.node i) ev = some (n, out) ∧
      c' =
        { nodes := Function.update c.nodes i n
          sent := out ++ c.sent
          stored := n.log.retainedLogEntries.map (i, ·) ++ c.stored
          applied := appliedBy i (c.nodes i) ev ++ c.applied
          voted := votedBy i (c.nodes i) out ev ++ c.voted
          elected := electedBy i (c.nodes i) ev ++ c.elected } := by
  unfold step at hs
  split at hs
  · rename_i hrecv
    obtain ⟨⟨n, out⟩, hn, rfl⟩ := Option.map_eq_some_iff.1 hs
    refine ⟨n, out, fun m hm => ?_, hn, rfl⟩
    simpa [hm] using hrecv
  · cases hs

/-- No node ran yet. -/
def start (config : ClusterConfig ν α σ) : Cluster ν α σ where
  nodes i := .fresh (config.node i)
  sent := []
  stored := []
  applied := []
  voted := []
  elected := []

/-- The runs whose every event meets a condition on it and the state before it. -/
inductive ReachableIf (config : ClusterConfig ν α σ) (Ok : Cluster ν α σ → ν → Event ν α σ → Prop) :
    Cluster ν α σ → Prop
  | start : ReachableIf config Ok (start config)
  | step {c c' : Cluster ν α σ} {i : ν} {ev : Event ν α σ} (h : ReachableIf config Ok c) (hok : Ok c i ev)
    (hs : c.step config i ev = some c') : ReachableIf config Ok c'

/-- The runs. -/
def Reachable (config : ClusterConfig ν α σ) : Cluster ν α σ → Prop :=
  ReachableIf config fun _ _ _ => True

theorem ReachableIf.mono {config : ClusterConfig ν α σ} {Ok Ok' : Cluster ν α σ → ν → Event ν α σ → Prop}
    {c : Cluster ν α σ} (h : ReachableIf config Ok c) (himp : ∀ c i ev, Ok c i ev → Ok' c i ev) :
    ReachableIf config Ok' c := by
  induction h with
  | start => exact .start
  | step _ hok hs ih => exact ih.step (himp _ _ _ hok) hs

/-- A run, event by event, as long as they meet a check. -/
def run (config : ClusterConfig ν α σ) (ok : Cluster ν α σ → ν → Event ν α σ → Bool) :
    Cluster ν α σ → List (ν × Event ν α σ) → Option (Cluster ν α σ)
  | c, [] => some c
  | c, (i, ev) :: evs => if ok c i ev then (c.step config i ev).bind (run config ok · evs) else none

theorem run_reachable {config : ClusterConfig ν α σ} {ok : Cluster ν α σ → ν → Event ν α σ → Bool}
    {evs : List (ν × Event ν α σ)} {c c' : Cluster ν α σ} (h : ReachableIf config (fun c i ev => ok c i ev = true) c)
    (hr : run config ok c evs = some c') : ReachableIf config (fun c i ev => ok c i ev = true) c' := by
  induction evs generalizing c with
  | nil =>
    cases hr
    exact h
  | cons e evs ih =>
    obtain ⟨i, ev⟩ := e
    simp only [run] at hr
    split at hr
    · rename_i hok
      obtain ⟨c₁, hs, hr⟩ := Option.bind_eq_some_iff.1 hr
      exact ih (h.step hok hs) hr
    · cases hr

/-- A run that ends in a state with a property. -/
theorem exists_of_run {config : ClusterConfig ν α σ} {ok : Cluster ν α σ → ν → Event ν α σ → Bool}
    {evs : List (ν × Event ν α σ)} {c : Cluster ν α σ} {p : Cluster ν α σ → Bool}
    (h : ReachableIf config (fun c i ev => ok c i ev = true) c) (hr : (run config ok c evs).any p = true) :
    ∃ c', ReachableIf config (fun c i ev => ok c i ev = true) c' ∧ p c' = true := by
  cases hrun : run config ok c evs with
  | none => simp [hrun] at hr
  | some c' => exact ⟨c', run_reachable h hrun, by simpa [hrun] using hr⟩

/-! ## Pieces of runs -/

/-- Node `i` holds an election and wins it with the votes of `voters`. -/
def electionEvents (i : ν) (voters : List ν) (r : RequestVote ν) : List (ν × Event ν α σ) :=
  [(i, .beginElection), (i, .readLastLogIndex 0), (i, .readLastLogTerm 0)] ++
  voters.flatMap (fun v => [(v, .handleRequestVote r false), (v, .answerRequestVote 0), (i, .recordVote 0 v r)]) ++
  [(i, .becomeLeader 0)]

/-- Node `leader` sends a batch to `peer`, which takes it in. -/
def batchEvents (leader peer : ν) (r : AppendEntries ν α) : List (ν × Event ν α σ) :=
  [(leader, .replicate peer 8 r.leaderCommit), (peer, .prepareAppendEntries r), (peer, .checkPrevious 0),
   (peer, .appendFromLeader 0), (peer, .finishAppendEntries 0),
   (leader, .handleAppended ⟨peer, r, r.term, true, r.sentMatchIndex, none, none⟩)]

/-- Node `i` commits an index. -/
def commitEvents (i : ν) (index : Nat) (ofChange : Bool) : List (ν × Event ν α σ) :=
  [(i, .commitLeaderIndex index ofChange), (i, .writeCommit 0), (i, .syncCommit)]

/-- Node `i` applies what is committed, in so many pieces. -/
def applyEvents (i : ν) (pieces : Nat) : List (ν × Event ν α σ) :=
  (i, .readCommitted) :: List.replicate pieces (i, .applyNext)

end Cluster

end LiveMutex.Raft
