/-
How many answers a membership needs: the number it reports is the least number of
distinct answers with which its quorum is met.

A membership asks for a quota of the old and one of the new voters; a simple one
asks twice for the same. The counting is that of `Quotas`.
-/
import LiveMutex.Lib.Quotas
import LiveMutex.Raft.Membership
import Mathlib.Order.Bounds.Basic

namespace LiveMutex.Raft

variable {ν : Type} [DecidableEq ν]

def jointQuorumSize (oldPeers newPeers : List ν) : Nat :=
  let oldQuorum := quorumFor oldPeers.length
  let newQuorum := quorumFor newPeers.length
  if oldQuorum = 0 ∨ newQuorum = 0 then 0
  else
    let overlap := oldPeers.countP (· ∈ newPeers)
    oldQuorum + newQuorum - min (min overlap oldQuorum) newQuorum

namespace RaftMembership

def quorumSize : RaftMembership ν → Nat
  | simple peers => quorumFor peers.length
  | joint oldPeers newPeers => jointQuorumSize oldPeers newPeers

/-- The lists a majority is asked of. -/
def voterLists : RaftMembership ν → List (List ν)
  | simple peers => [peers]
  | joint oldPeers newPeers => [oldPeers, newPeers]

/-- No list is empty, and none names a voter twice. -/
def WellFormed (m : RaftMembership ν) : Prop := ∀ peers ∈ m.voterLists, peers ≠ [] ∧ peers.Nodup

instance instDecidableWellFormed (m : RaftMembership ν) : Decidable m.WellFormed :=
  inferInstanceAs (Decidable (∀ peers ∈ m.voterLists, peers ≠ [] ∧ peers.Nodup))

/-- The voters of the old and of the new side; a simple membership has one side. -/
def oldVoters : RaftMembership ν → List ν
  | simple peers => peers
  | joint oldPeers _ => oldPeers

def newVoters : RaftMembership ν → List ν
  | simple peers => peers
  | joint _ newPeers => newPeers

variable {m : RaftMembership ν} {A : List ν}

omit [DecidableEq ν] in
theorem WellFormed.old (h : m.WellFormed) : m.oldVoters ≠ [] ∧ m.oldVoters.Nodup := by
  cases m with
  | simple peers => exact h peers (by simp [voterLists])
  | joint o n => exact h o (by simp [voterLists])

omit [DecidableEq ν] in
theorem WellFormed.new (h : m.WellFormed) : m.newVoters ≠ [] ∧ m.newVoters.Nodup := by
  cases m with
  | simple peers => exact h peers (by simp [voterLists])
  | joint o n => exact h n (by simp [voterLists])

theorem peerVotes_eq_card {peers : List ν} (hnodup : peers.Nodup) (A : List ν) :
    peerVotes peers A = (peers.toFinset ∩ A.toFinset).card := by
  have hset : peers.toFinset ∩ A.toFinset = (peers.filter (· ∈ A)).toFinset := by
    ext v
    simp
  rw [peerVotes, List.countP_eq_length_filter, hset, List.toFinset_card_of_nodup (hnodup.filter _)]

/-- The quotas of a membership. -/
abbrev Filled (m : RaftMembership ν) (A : Finset ν) : Prop :=
  Quotas.Met m.oldVoters.toFinset m.newVoters.toFinset (quorumFor m.oldVoters.length) (quorumFor m.newVoters.length) A

theorem quorumMet_iff_filled (hm : m.WellFormed) : m.quorumMet A = true ↔ m.Filled A.toFinset := by
  have hold := hm.old
  have hnew := hm.new
  unfold Filled Quotas.Met
  rw [← peerVotes_eq_card hold.2, ← peerVotes_eq_card hnew.2]
  cases m with
  | simple peers =>
    rw [quorumMet_simple]
    exact ⟨fun h => ⟨h.2, h.2⟩, fun h => ⟨hold.1, h.1⟩⟩
  | joint o n =>
    rw [quorumMet_joint, quorumMet_simple, quorumMet_simple]
    exact ⟨fun h => ⟨h.1.2, h.2.2⟩, fun h => ⟨⟨hold.1, h.1⟩, hnew.1, h.2⟩⟩

theorem quorumFor_le {n : Nat} (hn : n ≠ 0) : 0 < quorumFor n ∧ quorumFor n ≤ n := by
  rw [quorumFor, if_neg hn]
  omega

/-- The reported size is what the quotas miss when nobody has answered and
everybody may. -/
theorem quorumSize_eq_need (hm : m.WellFormed) {R : Finset ν} (hR : m.oldVoters.toFinset ⊆ R) :
    m.quorumSize = Quotas.need m.oldVoters.toFinset m.newVoters.toFinset (quorumFor m.oldVoters.length)
      (quorumFor m.newVoters.length) ∅ R := by
  have hold := hm.old
  have hnew := hm.new
  have hboth : (R \ ∅) ∩ (m.oldVoters.toFinset ∩ m.newVoters.toFinset) =
      m.oldVoters.toFinset ∩ m.newVoters.toFinset := by
    rw [Finset.sdiff_empty]
    exact Finset.inter_eq_right.2 (Finset.inter_subset_left.trans hR)
  rw [Quotas.need, hboth, ← peerVotes_eq_card hold.2]
  simp only [Finset.inter_empty, Finset.card_empty, Nat.sub_zero]
  have hpos := quorumFor_le (n := m.oldVoters.length) (by simpa using hold.1)
  have hpos' := quorumFor_le (n := m.newVoters.length) (by simpa using hnew.1)
  cases m with
  | simple peers =>
    -- every voter is of both sides
    have hall : peerVotes peers peers = peers.length := by
      rw [peerVotes, List.countP_eq_length]
      exact fun v hv => by simpa using hv
    simp only [quorumSize, oldVoters, newVoters, hall] at hpos ⊢
    omega
  | joint o n =>
    simp only [oldVoters, newVoters] at hpos hpos' ⊢
    simp only [quorumSize, jointQuorumSize, peerVotes]
    rw [if_neg (by omega)]
    omega

/-- Everybody's answer is enough. -/
theorem filled_all (hm : m.WellFormed) : m.Filled (m.oldVoters.toFinset ∪ m.newVoters.toFinset) := by
  have hold := quorumFor_le (n := m.oldVoters.length) (by simpa using hm.old.1)
  have hnew := quorumFor_le (n := m.newVoters.length) (by simpa using hm.new.1)
  constructor
  · rw [Finset.inter_eq_left.2 Finset.subset_union_left, List.toFinset_card_of_nodup hm.old.2]
    exact hold.2
  · rw [Finset.inter_eq_left.2 Finset.subset_union_right, List.toFinset_card_of_nodup hm.new.2]
    exact hnew.2

theorem quorumSize_le_card (hm : m.WellFormed) (h : m.quorumMet A = true) : m.quorumSize ≤ A.toFinset.card := by
  rw [quorumSize_eq_need hm (R := m.oldVoters.toFinset ∪ A.toFinset) Finset.subset_union_left]
  refine Quotas.need_le_card Finset.subset_union_right ?_
  rw [Finset.empty_union]
  exact (quorumMet_iff_filled hm).1 h

theorem exists_quorum_of_size (hm : m.WellFormed) :
    ∃ A : List ν, m.quorumMet A = true ∧ A.toFinset.card = m.quorumSize := by
  have hall : m.Filled (∅ ∪ (m.oldVoters.toFinset ∪ m.newVoters.toFinset)) := by
    rw [Finset.empty_union]
    exact filled_all hm
  obtain ⟨T, _, hmet, hcard⟩ := Quotas.exists_card_eq_need hall
  rw [Finset.empty_union] at hmet
  refine ⟨T.toList, ?_, ?_⟩
  · rw [quorumMet_iff_filled hm, Finset.toList_toFinset]
    exact hmet
  · rw [Finset.toList_toFinset, hcard, ← quorumSize_eq_need hm Finset.subset_union_left]

theorem quorumMet_votes (h : m.quorumMet A = true) {peers : List ν} (hp : peers ∈ m.voterLists) :
    peers ≠ [] ∧ quorumFor peers.length ≤ peerVotes peers A := by
  rw [← quorumMet_simple]
  cases m with
  | simple voters =>
    rw [List.mem_singleton.1 hp]
    exact h
  | joint o n =>
    rw [quorumMet_joint] at h
    simp only [voterLists, List.mem_cons, List.not_mem_nil, or_false] at hp
    rcases hp with rfl | rfl
    · exact h.1
    · exact h.2

/-- **The reported quorum size is exact.** It is the least number of distinct
answers that meet the quorum, and any two sets of answers that meet it have a voter
of each list in common. -/
theorem quorumSize_isLeast (hm : m.WellFormed) :
    IsLeast {n | ∃ A : List ν, m.quorumMet A = true ∧ A.toFinset.card = n} m.quorumSize ∧
    ∀ A B : List ν, m.quorumMet A = true → m.quorumMet B = true →
      ∀ peers ∈ m.voterLists, ∃ v ∈ peers, v ∈ A ∧ v ∈ B := by
  refine ⟨⟨exists_quorum_of_size hm, ?_⟩, ?_⟩
  · rintro n ⟨A, hA, rfl⟩
    exact quorumSize_le_card hm hA
  · intro A B hA hB peers hp
    have hvotes := quorumMet_votes hA hp
    exact exists_common_voter hvotes.1 hvotes.2 (quorumMet_votes hB hp).2

/-- Three old and four new voters, two of them in both lists: three answers. -/
theorem quorumSize_isLeast_overlap :
    (joint [1, 2, 3] [2, 3, 4, 5] : RaftMembership Nat).quorumSize = 3 ∧
    IsLeast {n | ∃ A : List Nat, (joint [1, 2, 3] [2, 3, 4, 5]).quorumMet A = true ∧ A.toFinset.card = n} 3 :=
  ⟨by decide, (quorumSize_isLeast (m := joint [1, 2, 3] [2, 3, 4, 5]) (by decide)).1⟩

end RaftMembership

end LiveMutex.Raft
