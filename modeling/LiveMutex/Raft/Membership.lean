/-
Who votes: a list of peers, or during a change the old and the new list
together. An election is won, and an entry committed, with a majority of the
list; under a joint membership with a majority of each.

Peers are known by their id. The address that stands beside it in the source is
fixed for an id (a change of address is refused), and is left out.
-/
import LiveMutex.Lib.Majority

namespace LiveMutex.Raft

variable {ν : Type} [DecidableEq ν]

inductive RaftMembership (ν : Type) where
  | simple (peers : List ν)
  | joint (oldPeers newPeers : List ν)
  deriving Repr, DecidableEq

def quorumFor (clusterSize : Nat) : Nat :=
  if clusterSize = 0 then 0 else clusterSize / 2 + 1

/-- How many of the peers are among those who answered. -/
def peerVotes (peers ackIds : List ν) : Nat :=
  peers.countP (· ∈ ackIds)

namespace RaftMembership

def activePeers : RaftMembership ν → List ν
  | simple peers => peers.dedup
  | joint oldPeers newPeers => (oldPeers ++ newPeers).dedup

def containsId (m : RaftMembership ν) (nodeId : ν) : Bool :=
  match m with
  | simple peers => peers.contains nodeId
  | joint oldPeers newPeers => (oldPeers ++ newPeers).contains nodeId

def quorumMet (m : RaftMembership ν) (ackIds : List ν) : Bool :=
  match m with
  | simple peers => !peers.isEmpty && quorumFor peers.length ≤ peerVotes peers ackIds
  | joint oldPeers newPeers => !oldPeers.isEmpty && !newPeers.isEmpty &&
      quorumFor oldPeers.length ≤ peerVotes oldPeers ackIds && quorumFor newPeers.length ≤ peerVotes newPeers ackIds

/-- Every quorum of the one membership has a member in common with every quorum
of the other. -/
def Meets (m m' : RaftMembership ν) : Prop :=
  ∀ a b, m.quorumMet a = true → m'.quorumMet b = true → ∃ v, v ∈ a ∧ v ∈ b

/-- Two majorities of one list have a member of it in common. -/
theorem exists_common_voter {peers a b : List ν} (hne : peers ≠ [])
    (ha : quorumFor peers.length ≤ peerVotes peers a) (hb : quorumFor peers.length ≤ peerVotes peers b) :
    ∃ v ∈ peers, v ∈ a ∧ v ∈ b := by
  have hlen : peers.length ≠ 0 := by simpa using hne
  simp only [quorumFor, hlen, if_false, peerVotes] at ha hb
  obtain ⟨v, hv, hva, hvb⟩ := Lib.exists_common_of_countP (l := peers) (p := (decide <| · ∈ a)) (q := (decide <| · ∈ b))
    (by omega)
  exact ⟨v, hv, by simpa using hva, by simpa using hvb⟩

theorem meets_of_list {peers a b : List ν} (hne : peers ≠ []) (ha : quorumFor peers.length ≤ peerVotes peers a)
    (hb : quorumFor peers.length ≤ peerVotes peers b) : ∃ v, v ∈ a ∧ v ∈ b := by
  obtain ⟨v, _, hv⟩ := exists_common_voter hne ha hb
  exact ⟨v, hv⟩

theorem quorumMet_simple {peers a : List ν} : (simple peers).quorumMet a = true ↔
    peers ≠ [] ∧ quorumFor peers.length ≤ peerVotes peers a := by
  simp [quorumMet]

theorem quorumMet_joint {o n a : List ν} : (joint o n).quorumMet a = true ↔
    (simple o).quorumMet a = true ∧ (simple n).quorumMet a = true := by
  simp [quorumMet]
  grind

theorem simple_meets (peers : List ν) : (simple peers).Meets (simple peers) := by
  intro a b ha hb
  rw [quorumMet_simple] at ha hb
  exact meets_of_list ha.1 ha.2 hb.2

theorem Meets.symm {m m' : RaftMembership ν} (h : m.Meets m') : m'.Meets m := by
  intro a b ha hb
  obtain ⟨v, hvb, hva⟩ := h b a hb ha
  exact ⟨v, hva, hvb⟩

/-- A joint membership meets the old and the new list. -/
theorem joint_meets_old (o n : List ν) : (joint o n).Meets (simple o) := by
  intro a b ha hb
  exact simple_meets o a b (quorumMet_joint.1 ha).1 hb

theorem joint_meets_new (o n : List ν) : (joint o n).Meets (simple n) := by
  intro a b ha hb
  exact simple_meets n a b (quorumMet_joint.1 ha).2 hb

theorem meets_self (m : RaftMembership ν) : m.Meets m := by
  cases m with
  | simple peers => exact simple_meets peers
  | joint o n =>
    intro a b ha hb
    exact simple_meets o a b (quorumMet_joint.1 ha).1 (quorumMet_joint.1 hb).1

/-- The memberships on either side of one step of a change meet. -/
theorem meets_of_step {o n peers : List ν} (h : (joint o n).Meets (simple peers)) :
    ∀ m ∈ [joint o n, simple peers], ∀ m' ∈ [joint o n, simple peers], m.Meets m' := by
  intro m hm m' hm'
  simp only [List.mem_cons, List.not_mem_nil, or_false] at hm hm'
  rcases hm with rfl | rfl <;> rcases hm' with rfl | rfl
  · exact meets_self _
  · exact h
  · exact h.symm
  · exact meets_self _

end RaftMembership

end LiveMutex.Raft
