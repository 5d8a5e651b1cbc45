/-
Whom a leader sends an entry to first: as few peers as complete the quorum, those
who gain most first and of these the ones furthest ahead, starting elsewhere in
every round; and, when some of them still have a request under way, the same among
the others if they suffice.

`Quotas.need` is what the loop counts down: each peer it picks is one of the
greatest gain, and leaves one less to pick.
-/
import LiveMutex.Raft.QuorumSize
import Mathlib.Data.List.Rotate
import Mathlib.Data.List.Sort

namespace LiveMutex.Raft

variable {ν : Type} [LinearOrder ν]

namespace RaftMembership

/-- What an answer more adds to the votes that still count. -/
def quorumGain (m : RaftMembership ν) (before after : List ν) : Nat :=
  match m with
  | simple peers =>
    min (peerVotes peers after) (quorumFor peers.length) - min (peerVotes peers before) (quorumFor peers.length)
  | joint oldPeers newPeers =>
    (min (peerVotes oldPeers after) (quorumFor oldPeers.length) -
      min (peerVotes oldPeers before) (quorumFor oldPeers.length)) +
    (min (peerVotes newPeers after) (quorumFor newPeers.length) -
      min (peerVotes newPeers before) (quorumFor newPeers.length))

end RaftMembership

section Selection

variable (membership : RaftMembership ν)

/-- One remote peer against the best one so far: its gain, how far it is known to
have followed, and its id. At equal gain and index the earlier one stays. -/
def considerPeer (selectedAcks selected : List ν) (best : Option (Nat × Nat × ν)) (remote : ν × Nat) :
    Option (Nat × Nat × ν) :=
  if remote.1 ∈ selected then best
  else
    let gain := membership.quorumGain selectedAcks (remote.1 :: selectedAcks)
    if gain = 0 then best
    else match best with
      | none => some (gain, remote.2, remote.1)
      | some current =>
        if current.1 < gain ∨ current.1 = gain ∧ current.2.1 < remote.2 then some (gain, remote.2, remote.1)
        else best

/-- The loop over the quorum. Every round selects one remote peer more, so there
are no more rounds than remote peers: after that none is left to consider. -/
def selectUntilQuorum (remotePeers : List (ν × Nat)) : Nat → List ν → List ν → Option (List ν)
  | fuel, selectedAcks, selected =>
    if membership.quorumMet selectedAcks then some selected
    else match fuel with
      | 0 => none
      | fuel + 1 =>
        match remotePeers.foldl (considerPeer membership selectedAcks selected) none with
        | none => none
        | some (_, _, peer) => selectUntilQuorum remotePeers fuel (peer :: selectedAcks) (peer :: selected)

/-- Peers beyond the quorum, in the order of the round. -/
def addExtraFanout (total : Nat) : List (ν × Nat) → Nat → List ν → List ν
  | [], _, selected => selected
  | (peer, _) :: rest, remainingExtra, selected =>
    if remainingExtra = 0 ∨ total ≤ selected.length then selected
    else if peer ∈ selected then addExtraFanout total rest remainingExtra selected
    else addExtraFanout total rest (remainingExtra - 1) (peer :: selected)

/-- Furthest ahead first, then by id; every round starts one further. -/
def fanoutOrder (remotePeers : List (ν × Nat)) (fanoutRound : Nat) : List (ν × Nat) :=
  let sorted := remotePeers.insertionSort fun left right => right.2 < left.2 ∨ left.2 = right.2 ∧ left.1 ≤ right.1
  if 1 < sorted.length then sorted.rotate ((fanoutRound - 1) % sorted.length) else sorted

def selectTargetReplicationPeers (targetIndex : Option Nat) (ackIds : List ν) (remotePeers : List (ν × Nat))
    (fanoutRound extraFanout : Nat) : List ν :=
  if targetIndex.isNone then remotePeers.map Prod.fst
  else if membership.quorumMet ackIds then []
  else if remotePeers.isEmpty then []
  else
    let ordered := fanoutOrder remotePeers fanoutRound
    match selectUntilQuorum membership ordered remotePeers.length ackIds [] with
    | none => remotePeers.map Prod.fst
    | some selected =>
      if remotePeers.length ≤ selected.length then remotePeers.map Prod.fst
      else
        -- the selection is kept in a map and comes out by id
        (addExtraFanout remotePeers.length ordered extraFanout selected).insertionSort (· ≤ ·)

structure TargetReplicationPeerSelection (ν : Type) where
  peers : List ν
  busyReplacements : List (ν × Nat)
  extraFanoutPeers : Nat
  deriving Repr, DecidableEq

def selectTargetReplicationPeersAvoidingBusy (targetIndex : Option Nat) (ackIds : List ν)
    (remotePeers : List (ν × Nat)) (fanoutRound extraFanout : Nat) (busyPeerIds : List ν) :
    TargetReplicationPeerSelection ν :=
  let minimalSelected := selectTargetReplicationPeers membership targetIndex ackIds remotePeers fanoutRound 0
  let selected := selectTargetReplicationPeers membership targetIndex ackIds remotePeers fanoutRound extraFanout
  let asSelected : TargetReplicationPeerSelection ν :=
    { peers := selected, busyReplacements := [], extraFanoutPeers := selected.length - minimalSelected.length }
  if targetIndex.isNone || selected.isEmpty || busyPeerIds.isEmpty || !selected.any (· ∈ busyPeerIds) then asSelected
  else
    let readyRemotePeers := remotePeers.filter fun remote => remote.1 ∉ busyPeerIds
    if readyRemotePeers.isEmpty then asSelected
    else
      let readyMinimalSelected :=
        selectTargetReplicationPeers membership targetIndex ackIds readyRemotePeers fanoutRound 0
      let readySelected :=
        selectTargetReplicationPeers membership targetIndex ackIds readyRemotePeers fanoutRound extraFanout
      if !membership.quorumMet (ackIds ++ readySelected) then asSelected
      else
        { peers := readySelected,
          busyReplacements := remotePeers.filter fun remote =>
            remote.1 ∈ selected && remote.1 ∈ busyPeerIds && remote.1 ∉ readySelected,
          extraFanoutPeers := readySelected.length - readyMinimalSelected.length }

end Selection

/-! ## The gain of a peer -/

section Gain

variable {m : RaftMembership ν}

/-- The gain that counts quotas. -/
abbrev quotaGain (m : RaftMembership ν) (acks : List ν) (x : ν) : Nat :=
  Quotas.gain m.oldVoters.toFinset m.newVoters.toFinset (quorumFor m.oldVoters.length)
    (quorumFor m.newVoters.length) acks.toFinset x

abbrev quotaNeed (m : RaftMembership ν) (acks : List ν) (R : Finset ν) : Nat :=
  Quotas.need m.oldVoters.toFinset m.newVoters.toFinset (quorumFor m.oldVoters.length)
    (quorumFor m.newVoters.length) acks.toFinset R

theorem peerVotes_cons {peers : List ν} (hnodup : peers.Nodup) (acks : List ν) (x : ν) :
    peerVotes peers (x :: acks) = peerVotes peers acks + if x ∈ peers ∧ x ∉ acks then 1 else 0 := by
  rw [RaftMembership.peerVotes_eq_card hnodup, RaftMembership.peerVotes_eq_card hnodup, List.toFinset_cons,
    Quotas.card_inter_insert]
  simp only [List.mem_toFinset]

/-- A voter's answer gains one where it is new and still missing. -/
theorem min_peerVotes_cons {peers : List ν} (hnodup : peers.Nodup) (acks : List ν) (x : ν) (quorum : Nat) :
    min (peerVotes peers (x :: acks)) quorum - min (peerVotes peers acks) quorum =
      if x ∈ peers.toFinset ∧ x ∉ acks.toFinset ∧ (peers.toFinset ∩ acks.toFinset).card < quorum then 1 else 0 := by
  rw [peerVotes_cons hnodup, ← RaftMembership.peerVotes_eq_card hnodup]
  simp only [List.mem_toFinset]
  split_ifs with hnew hgain hgain
  · omega
  · have : ¬peerVotes peers acks < quorum := fun hlt => hgain ⟨hnew.1, hnew.2, hlt⟩
    omega
  · exact absurd ⟨hgain.1, hgain.2.1⟩ hnew
  · omega

/-- The two gains order the peers alike; a simple membership counts each voter once
and the quotas twice. -/
theorem quotaGain_eq (hm : m.WellFormed) (acks : List ν) :
    ∃ c, 0 < c ∧ ∀ x, quotaGain m acks x = c * m.quorumGain acks (x :: acks) := by
  have hold := hm.old.2
  have hnew := hm.new.2
  cases m with
  | simple peers =>
    refine ⟨2, by omega, fun x => ?_⟩
    change peers.Nodup at hold
    rw [RaftMembership.quorumGain, min_peerVotes_cons hold]
    exact (Nat.two_mul _).symm
  | joint o n =>
    refine ⟨1, by omega, fun x => ?_⟩
    change o.Nodup at hold
    change n.Nodup at hnew
    rw [RaftMembership.quorumGain, min_peerVotes_cons hold, min_peerVotes_cons hnew]
    exact (Nat.one_mul _).symm

theorem RaftMembership.quorumMet_mono {A B : List ν} (hsub : A ⊆ B) (h : m.quorumMet A = true) :
    m.quorumMet B = true := by
  have hvotes : ∀ peers : List ν, peerVotes peers A ≤ peerVotes peers B := fun peers =>
    List.countP_mono_left fun v _ hv => by simpa using hsub (by simpa using hv)
  cases m with
  | simple peers =>
    rw [RaftMembership.quorumMet_simple] at h ⊢
    exact ⟨h.1, h.2.trans (hvotes peers)⟩
  | joint o n =>
    rw [RaftMembership.quorumMet_joint, RaftMembership.quorumMet_simple, RaftMembership.quorumMet_simple] at h ⊢
    exact ⟨⟨h.1.1, h.1.2.trans (hvotes o)⟩, h.2.1, h.2.2.trans (hvotes n)⟩

end Gain

/-! ## One round of the loop -/

section Round

variable {m : RaftMembership ν} {acks selected : List ν}

/-- What a round knows of the peers it has looked at. -/
def BestPeer (m : RaftMembership ν) (acks selected : List ν) (seen : List (ν × Nat)) : Option (Nat × Nat × ν) → Prop
  | none => ∀ remote ∈ seen, remote.1 ∈ selected ∨ m.quorumGain acks (remote.1 :: acks) = 0
  | some (gain, _, peer) => peer ∈ seen.map Prod.fst ∧ peer ∉ selected ∧ 0 < gain ∧
      gain = m.quorumGain acks (peer :: acks) ∧
      ∀ remote ∈ seen, remote.1 ∉ selected → m.quorumGain acks (remote.1 :: acks) ≤ gain

theorem BestPeer.consider {seen : List (ν × Nat)} {best : Option (Nat × Nat × ν)}
    (h : BestPeer m acks selected seen best) (remote : ν × Nat) :
    BestPeer m acks selected (seen ++ [remote]) (considerPeer m acks selected best remote) := by
  -- a peer that is passed by changes nothing
  have hkeep : (remote.1 ∈ selected ∨ ∃ gain matchIndex peer, best = some (gain, matchIndex, peer) ∧
      m.quorumGain acks (remote.1 :: acks) ≤ gain) ∨ (best = none ∧ m.quorumGain acks (remote.1 :: acks) = 0) →
      BestPeer m acks selected (seen ++ [remote]) best := by
    intro hpass
    match best, h with
    | none, h =>
      intro r hr
      rcases List.mem_append.1 hr with hr | hr
      · exact h r hr
      · rw [List.mem_singleton.1 hr]
        rcases hpass with (hsel | ⟨_, _, _, hbest, _⟩) | ⟨_, hzero⟩
        · exact .inl hsel
        · exact absurd hbest (by simp)
        · exact .inr hzero
    | some (gain, matchIndex, peer), ⟨hmem, hnot, hpos, hgain, hmax⟩ =>
      refine ⟨by simp only [List.map_append, List.mem_append]; exact .inl hmem, hnot, hpos, hgain, ?_⟩
      intro r hr hrnot
      rcases List.mem_append.1 hr with hr | hr
      · exact hmax r hr hrnot
      · rw [List.mem_singleton.1 hr] at hrnot ⊢
        rcases hpass with (hsel | ⟨_, _, _, hbest, hle⟩) | ⟨hbest, _⟩
        · exact absurd hsel hrnot
        · simp only [Option.some.injEq, Prod.mk.injEq] at hbest
          omega
        · exact absurd hbest (by simp)
  -- and one that is taken is at least as good as all before it
  have htake : remote.1 ∉ selected → 0 < m.quorumGain acks (remote.1 :: acks) →
      (∀ r ∈ seen, r.1 ∉ selected → m.quorumGain acks (r.1 :: acks) ≤ m.quorumGain acks (remote.1 :: acks)) →
      BestPeer m acks selected (seen ++ [remote])
        (some (m.quorumGain acks (remote.1 :: acks), remote.2, remote.1)) := by
    intro hnot hpos hmax
    refine ⟨by simp, hnot, hpos, rfl, fun r hr hrnot => ?_⟩
    rcases List.mem_append.1 hr with hr | hr
    · exact hmax r hr hrnot
    · rw [List.mem_singleton.1 hr]
  simp only [considerPeer]
  split
  · rename_i hsel
    exact hkeep (.inl (.inl hsel))
  · rename_i hnot
    split
    · rename_i hzero
      match best with
      | none => exact hkeep (.inr ⟨rfl, hzero⟩)
      | some (gain, matchIndex, peer) => exact hkeep (.inl (.inr ⟨gain, matchIndex, peer, rfl, by omega⟩))
    · rename_i hzero
      match best, h with
      | none, h =>
        refine htake hnot (by omega) fun r hr hrnot => ?_
        rw [(h r hr).resolve_left hrnot]
        omega
      | some (gain, matchIndex, peer), h =>
        dsimp only
        split
        · rename_i hbetter
          refine htake hnot (by omega) fun r hr hrnot => ?_
          have := h.2.2.2.2 r hr hrnot
          omega
        · rename_i hworse
          exact hkeep (.inl (.inr ⟨gain, matchIndex, peer, rfl, by omega⟩))

theorem bestPeer_foldl (m : RaftMembership ν) (acks selected : List ν) (remotes : List (ν × Nat)) :
    BestPeer m acks selected remotes (remotes.foldl (considerPeer m acks selected) none) := by
  have hfold : ∀ (rest seen : List (ν × Nat)) (best : Option (Nat × Nat × ν)), BestPeer m acks selected seen best →
      BestPeer m acks selected (seen ++ rest) (rest.foldl (considerPeer m acks selected) best) := by
    intro rest
    induction rest with
    | nil => intro seen best h; simpa using h
    | cons remote rest ih =>
      intro seen best h
      have := ih _ _ (h.consider remote)
      rwa [List.append_assoc, List.singleton_append] at this
  exact hfold remotes [] none (by simp [BestPeer])

end Round

/-! ## The loop -/

section Loop

variable {m : RaftMembership ν} {remotes : List (ν × Nat)}

abbrev ids (remotes : List (ν × Nat)) : List ν := remotes.map Prod.fst

theorem quorumMet_append_iff (hm : m.WellFormed) (acks T : List ν) :
    m.quorumMet (acks ++ T) = true ↔ m.Filled (acks.toFinset ∪ T.toFinset) := by
  rw [RaftMembership.quorumMet_iff_filled hm, List.toFinset_append]

/-- A round that finds a peer has found one of the greatest gain among all. -/
theorem quotaGain_max (hm : m.WellFormed) {acks selected : List ν} (hsel : selected ⊆ acks)
    {gain matchIndex : Nat} {peer : ν}
    (hbest : remotes.foldl (considerPeer m acks selected) none = some (gain, matchIndex, peer)) :
    peer ∈ ids remotes ∧ 0 < quotaGain m acks peer ∧
      ∀ y ∈ (ids remotes).toFinset, quotaGain m acks y ≤ quotaGain m acks peer := by
  have h := bestPeer_foldl m acks selected remotes
  rw [hbest] at h
  obtain ⟨hmem, hnot, hpos, hgain, hmax⟩ := h
  obtain ⟨c, hc, heq⟩ := quotaGain_eq hm acks
  refine ⟨hmem, ?_, fun y hy => ?_⟩
  · rw [heq, ← hgain]
    exact Nat.mul_pos hc hpos
  · by_cases hysel : y ∈ selected
    · rw [quotaGain, Quotas.gain_eq_zero_of_mem (List.mem_toFinset.2 (hsel hysel))]
      omega
    · obtain ⟨remote, hremote, rfl⟩ := List.mem_map.1 (List.mem_toFinset.1 hy)
      rw [heq, heq, ← hgain]
      exact Nat.mul_le_mul_left c (hmax remote hremote hysel)

/-- A round that finds none leaves nobody who would help. -/
theorem quotaGain_none (hm : m.WellFormed) {acks selected : List ν} (hsel : selected ⊆ acks)
    (hbest : remotes.foldl (considerPeer m acks selected) none = none) :
    ∀ y ∈ (ids remotes).toFinset, quotaGain m acks y = 0 := by
  have h := bestPeer_foldl m acks selected remotes
  rw [hbest] at h
  obtain ⟨c, _, heq⟩ := quotaGain_eq hm acks
  intro y hy
  obtain ⟨remote, hremote, rfl⟩ := List.mem_map.1 (List.mem_toFinset.1 hy)
  rcases h remote hremote with hmem | hzero
  · exact Quotas.gain_eq_zero_of_mem (List.mem_toFinset.2 (hsel hmem))
  · rw [heq, hzero, Nat.mul_zero]

theorem filled_cons_union {acks : List ν} {peer : ν} (hpeer : peer ∈ ids remotes) :
    (peer :: acks).toFinset ∪ (ids remotes).toFinset = acks.toFinset ∪ (ids remotes).toFinset := by
  rw [List.toFinset_cons, Finset.insert_union,
    Finset.insert_eq_self.2 (Finset.mem_union_right _ (List.mem_toFinset.2 hpeer))]

/-- **The loop ends with as few peers as complete the quorum**, when all together do. -/
theorem selectUntilQuorum_some (hm : m.WellFormed) : ∀ {fuel : Nat} {acks selected : List ν}, selected ⊆ acks →
    m.Filled (acks.toFinset ∪ (ids remotes).toFinset) → quotaNeed m acks (ids remotes).toFinset ≤ fuel →
    ∃ new, selectUntilQuorum m remotes fuel acks selected = some (new ++ selected) ∧ new ⊆ ids remotes ∧
      new.Nodup ∧ (∀ x ∈ new, x ∉ acks) ∧ m.Filled (acks.toFinset ∪ new.toFinset) ∧
      new.length = quotaNeed m acks (ids remotes).toFinset := by
  intro fuel
  -- by induction on the rounds; each takes one off what is missing
  induction fuel with
  | zero =>
    intro acks selected _ hfilled hneed
    have hmet : m.Filled acks.toFinset := by
      by_contra hnot
      obtain ⟨x, hx, hpos, hmax⟩ := Quotas.exists_max_gain hfilled hnot
      have := Quotas.need_insert hx hpos hmax
      rw [quotaNeed] at hneed
      omega
    refine ⟨[], ?_, by simp, by simp, by simp, by simpa using hmet, (Nat.le_zero.1 hneed).symm⟩
    rw [selectUntilQuorum, if_pos ((RaftMembership.quorumMet_iff_filled hm).2 hmet), List.nil_append]
  | succ fuel ih =>
    intro acks selected hsel hfilled hneed
    by_cases hmet : m.quorumMet acks = true
    · have hmet' := (RaftMembership.quorumMet_iff_filled hm).1 hmet
      refine ⟨[], ?_, by simp, by simp, by simp, by simpa using hmet', ?_⟩
      · rw [selectUntilQuorum, if_pos hmet, List.nil_append]
      · rw [quotaNeed, Quotas.need_eq_zero hmet', List.length_nil]
    · have hnot : ¬m.Filled acks.toFinset := fun h => hmet ((RaftMembership.quorumMet_iff_filled hm).2 h)
      rw [selectUntilQuorum, if_neg hmet]
      cases hbest : remotes.foldl (considerPeer m acks selected) none with
      | none =>
        obtain ⟨y, hy, hpos⟩ := Quotas.exists_gain hfilled hnot
        have := quotaGain_none hm hsel hbest y hy
        rw [quotaGain] at this
        omega
      | some best =>
        obtain ⟨gain, matchIndex, peer⟩ := best
        obtain ⟨hpeer, hpos, hmax⟩ := quotaGain_max hm hsel hbest
        have hstep := Quotas.need_insert (List.mem_toFinset.2 hpeer) hpos hmax
        rw [← List.toFinset_cons] at hstep
        have hacks : peer ∉ acks := fun h => by
          rw [quotaGain, Quotas.gain_eq_zero_of_mem (List.mem_toFinset.2 h)] at hpos
          omega
        obtain ⟨new, hnew, hsub, hnodup, hfresh, hfill, hlen⟩ := ih (List.cons_subset_cons peer hsel)
          (by rw [filled_cons_union hpeer]; exact hfilled) (by rw [quotaNeed] at hneed ⊢; omega)
        refine ⟨new ++ [peer], ?_, ?_, ?_, ?_, ?_, ?_⟩
        · simpa using hnew
        · exact List.append_subset.2 ⟨hsub, by simpa using hpeer⟩
        · refine List.nodup_append'.2 ⟨hnodup, by simp, ?_⟩
          intro x hx hx'
          exact hfresh x hx (by rw [List.mem_singleton.1 hx']; exact List.mem_cons_self)
        · intro x hx
          rcases List.mem_append.1 hx with hx | hx
          · exact fun h => hfresh x hx (List.mem_cons_of_mem _ h)
          · rw [List.mem_singleton.1 hx]
            exact hacks
        · have hset : acks.toFinset ∪ (new ++ [peer]).toFinset = (peer :: acks).toFinset ∪ new.toFinset := by
            ext x
            simp only [Finset.mem_union, List.mem_toFinset, List.mem_append, List.mem_cons, List.not_mem_nil,
              or_false]
            tauto
          rw [hset]
          exact hfill
        · rw [List.length_append, List.length_singleton, hlen]
          exact hstep

/-- When all remote peers together do not complete the quorum, the loop runs out of
peers. -/
theorem selectUntilQuorum_none (hm : m.WellFormed) : ∀ {fuel : Nat} {acks selected : List ν}, selected ⊆ acks →
    ¬m.Filled (acks.toFinset ∪ (ids remotes).toFinset) → selectUntilQuorum m remotes fuel acks selected = none := by
  intro fuel
  induction fuel with
  | zero =>
    intro acks selected _ hnot
    have hmet : ¬m.quorumMet acks = true := fun h =>
      hnot ((quorumMet_append_iff hm _ _).1 (RaftMembership.quorumMet_mono (List.subset_append_left _ _) h))
    rw [selectUntilQuorum, if_neg hmet]
  | succ fuel ih =>
    intro acks selected hsel hnot
    have hmet : ¬m.quorumMet acks = true := fun h =>
      hnot ((quorumMet_append_iff hm _ _).1 (RaftMembership.quorumMet_mono (List.subset_append_left _ _) h))
    rw [selectUntilQuorum, if_neg hmet]
    cases hbest : remotes.foldl (considerPeer m acks selected) none with
    | none => rfl
    | some best =>
      obtain ⟨gain, matchIndex, peer⟩ := best
      have hpeer := (quotaGain_max hm hsel hbest).1
      exact ih (List.cons_subset_cons peer hsel) (by rw [filled_cons_union hpeer]; exact hnot)

end Loop

/-! ## The selection -/

section Select

variable {m : RaftMembership ν} {acks : List ν} {remotes : List (ν × Nat)} {target round extra : Nat}

theorem fanoutOrder_perm (remotes : List (ν × Nat)) (round : Nat) : (fanoutOrder remotes round).Perm remotes := by
  simp only [fanoutOrder]
  split
  · exact (List.rotate_perm _ _).trans (List.perm_insertionSort _ _)
  · exact List.perm_insertionSort _ _

theorem mem_ids_fanoutOrder {x : ν} : x ∈ ids (fanoutOrder remotes round) ↔ x ∈ ids remotes :=
  ((fanoutOrder_perm remotes round).map Prod.fst).mem_iff

omit [LinearOrder ν] in
theorem append_subset_left (acks : List ν) {A B : List ν} (h : A ⊆ B) : acks ++ A ⊆ acks ++ B :=
  List.append_subset.2 ⟨List.subset_append_left _ _, fun _ hx => List.mem_append_right _ (h hx)⟩

theorem subset_addExtraFanout (total : Nat) : ∀ (ordered : List (ν × Nat)) (extra : Nat) (selected : List ν),
    selected ⊆ addExtraFanout total ordered extra selected
  | [], _, _ => List.Subset.refl _
  | (peer, _) :: rest, extra, selected => by
    rw [addExtraFanout]
    split
    · exact List.Subset.refl _
    · split
      · exact subset_addExtraFanout total rest extra selected
      · exact List.Subset.trans (List.subset_cons_self peer selected) (subset_addExtraFanout total rest _ _)

theorem addExtraFanout_subset (total : Nat) : ∀ (ordered : List (ν × Nat)) (extra : Nat) (selected : List ν),
    addExtraFanout total ordered extra selected ⊆ ids ordered ++ selected
  | [], _, selected => by simp [addExtraFanout]
  | (peer, _) :: rest, extra, selected => by
    rw [addExtraFanout]
    split
    · exact List.subset_append_right _ _
    · split
      · refine List.Subset.trans (addExtraFanout_subset total rest extra selected) fun x hx => ?_
        simp only [ids, List.map_cons, List.cons_append, List.mem_cons]
        exact .inr hx
      · refine List.Subset.trans (addExtraFanout_subset total rest _ _) fun x hx => ?_
        simp only [ids, List.map_cons, List.cons_append, List.mem_append, List.mem_cons] at hx ⊢
        tauto

theorem addExtraFanout_zero (total : Nat) (ordered : List (ν × Nat)) (selected : List ν) :
    addExtraFanout total ordered 0 selected = selected := by
  cases ordered with
  | nil => rfl
  | cons head rest => rw [addExtraFanout, if_pos (.inl rfl)]

/-- The loop on the remote peers as they stand in a round. -/
theorem selectUntilQuorum_ordered (round : Nat) (hm : m.WellFormed) (hnodup : (ids remotes).Nodup)
    (h : m.quorumMet (acks ++ ids remotes) = true) : ∃ selected,
      selectUntilQuorum m (fanoutOrder remotes round) remotes.length acks [] = some selected ∧
      selected ⊆ ids remotes ∧ selected.Nodup ∧ m.quorumMet (acks ++ selected) = true ∧
      ∀ T : List ν, T ⊆ ids remotes → m.quorumMet (acks ++ T) = true → selected.length ≤ T.length := by
  have hset : (ids (fanoutOrder remotes round)).toFinset = (ids remotes).toFinset := by
    ext x
    rw [List.mem_toFinset, List.mem_toFinset, mem_ids_fanoutOrder]
  have hfilled := (quorumMet_append_iff hm _ _).1 h
  have hneed : quotaNeed m acks (ids remotes).toFinset ≤ remotes.length := by
    have := Quotas.need_le_card (Finset.Subset.refl (ids remotes).toFinset) hfilled
    rw [List.toFinset_card_of_nodup hnodup, ids, List.length_map] at this
    exact this
  rw [← hset] at hfilled hneed
  obtain ⟨new, hnew, hsub, hnd, _, hfill, hlen⟩ := selectUntilQuorum_some hm (List.nil_subset acks) hfilled hneed
  refine ⟨new, by simpa using hnew, fun x hx => mem_ids_fanoutOrder.1 (hsub hx), hnd,
    (quorumMet_append_iff hm _ _).2 hfill, fun T hT hmet => ?_⟩
  rw [hlen, hset]
  refine (Quotas.need_le_card (T := T.toFinset) (fun x hx => ?_) ((quorumMet_append_iff hm _ _).1 hmet)).trans
    (List.toFinset_card_le T)
  exact List.mem_toFinset.2 (hT (List.mem_toFinset.1 hx))

/-- The loop finds nothing when all together do not complete the quorum. -/
theorem selectUntilQuorum_ordered_none (hm : m.WellFormed) (h : m.quorumMet (acks ++ ids remotes) = false) :
    selectUntilQuorum m (fanoutOrder remotes round) remotes.length acks [] = none := by
  refine selectUntilQuorum_none hm (List.nil_subset acks) fun hfilled => ?_
  have hmet := (quorumMet_append_iff hm acks (ids (fanoutOrder remotes round))).2 hfilled
  have hsub : acks ++ ids (fanoutOrder remotes round) ⊆ acks ++ ids remotes :=
    append_subset_left acks fun x hx => mem_ids_fanoutOrder.1 hx
  rw [RaftMembership.quorumMet_mono hsub hmet] at h
  exact absurd h (by simp)

/-- What is selected, by the cases of the function. -/
theorem select_cases (acks : List ν) (target round extra : Nat) (hm : m.WellFormed) (hnodup : (ids remotes).Nodup) :
    (m.quorumMet acks = true ∧ selectTargetReplicationPeers m (some target) acks remotes round extra = []) ∨
    (m.quorumMet (acks ++ ids remotes) = false ∧
      selectTargetReplicationPeers m (some target) acks remotes round extra = ids remotes) ∨
    (m.quorumMet (acks ++ ids remotes) = true ∧ ∃ selected, selected ⊆ ids remotes ∧ selected.Nodup ∧
      m.quorumMet (acks ++ selected) = true ∧
      (∀ T : List ν, T ⊆ ids remotes → m.quorumMet (acks ++ T) = true → selected.length ≤ T.length) ∧
      ((selectTargetReplicationPeers m (some target) acks remotes round extra = ids remotes ∧
          remotes.length ≤ selected.length) ∨
        (selectTargetReplicationPeers m (some target) acks remotes round extra).Perm
          (addExtraFanout remotes.length (fanoutOrder remotes round) extra selected))) := by
  by_cases hmet : m.quorumMet acks = true
  · exact .inl ⟨hmet, by simp [selectTargetReplicationPeers, hmet]⟩
  · cases hall : m.quorumMet (acks ++ ids remotes) with
    | false =>
      refine .inr (.inl ⟨rfl, ?_⟩)
      simp only [selectTargetReplicationPeers, Option.isNone_some, Bool.false_eq_true, if_false, hmet,
        selectUntilQuorum_ordered_none hm hall]
      split
      · rename_i hempty
        rw [List.isEmpty_iff.1 hempty]
        rfl
      · rfl
    | true =>
      have hne : ¬remotes.isEmpty = true := fun hempty => by
        rw [List.isEmpty_iff.1 hempty, ids, List.map_nil, List.append_nil] at hall
        exact hmet hall
      obtain ⟨selected, hloop, hsub, hnd, hcomplete, hmin⟩ :=
        selectUntilQuorum_ordered round hm hnodup hall
      refine .inr (.inr ⟨rfl, selected, hsub, hnd, hcomplete, hmin, ?_⟩)
      simp only [selectTargetReplicationPeers, Option.isNone_some, Bool.false_eq_true, if_false, hmet, hne, hloop]
      split
      · rename_i hlen
        exact .inl ⟨rfl, hlen⟩
      · exact .inr (List.perm_insertionSort _ _)

/-- Whatever is added, the selection is made of remote peers and completes the
quorum when all of them do. -/
theorem select_completes (acks : List ν) (target round extra : Nat) (hm : m.WellFormed)
    (hnodup : (ids remotes).Nodup) :
    selectTargetReplicationPeers m (some target) acks remotes round extra ⊆ ids remotes ∧
    (m.quorumMet (acks ++ ids remotes) = true →
      m.quorumMet (acks ++ selectTargetReplicationPeers m (some target) acks remotes round extra) = true) := by
  rcases select_cases acks target round extra hm hnodup with
    ⟨hmet, hnil⟩ | ⟨hnot, hids⟩ | ⟨hall, selected, hsub, _, hcomplete, _, ⟨hids, _⟩ | hperm⟩
  · rw [hnil, List.append_nil]
    exact ⟨List.nil_subset _, fun _ => hmet⟩
  · rw [hids]
    exact ⟨List.Subset.refl _, id⟩
  · rw [hids]
    exact ⟨List.Subset.refl _, id⟩
  · refine ⟨fun x hx => ?_, fun _ => ?_⟩
    · have hx' := addExtraFanout_subset _ _ _ _ (hperm.mem_iff.1 hx)
      exact (List.mem_append.1 hx').elim mem_ids_fanoutOrder.1 (hsub ·)
    · refine RaftMembership.quorumMet_mono (append_subset_left acks fun x hx => ?_) hcomplete
      exact hperm.mem_iff.2 (subset_addExtraFanout _ _ _ _ hx)

/-- Without extra peers the selection is as small as any that completes the quorum. -/
theorem select_minimal (target round : Nat) (hm : m.WellFormed) (hnodup : (ids remotes).Nodup)
    (hall : m.quorumMet (acks ++ ids remotes) = true) :
    (selectTargetReplicationPeers m (some target) acks remotes round 0).Nodup ∧
    ∀ T : List ν, T ⊆ ids remotes → m.quorumMet (acks ++ T) = true →
      (selectTargetReplicationPeers m (some target) acks remotes round 0).length ≤ T.length := by
  rcases select_cases acks target round 0 hm hnodup with
    ⟨_, hnil⟩ | ⟨hnot, _⟩ | ⟨_, selected, _, hnd, _, hmin, ⟨hids, hlen⟩ | hperm⟩
  · rw [hnil]
    exact ⟨List.nodup_nil, fun T _ _ => Nat.zero_le _⟩
  · exact absurd (hall.symm.trans hnot) (by simp)
  · rw [hids]
    refine ⟨hnodup, fun T hT hmet => ?_⟩
    have := hmin T hT hmet
    rw [ids, List.length_map]
    omega
  · rw [addExtraFanout_zero] at hperm
    refine ⟨hperm.nodup_iff.2 hnd, fun T hT hmet => ?_⟩
    rw [hperm.length_eq]
    exact hmin T hT hmet

theorem ids_filter (busy : List ν) :
    ids (remotes.filter fun remote => remote.1 ∉ busy) = (ids remotes).filter (· ∉ busy) := by
  rw [ids, ids, List.filter_map]
  rfl

/-- The selection that avoids the busy peers, by its cases. -/
theorem avoidingBusy_peers (m : RaftMembership ν) (acks : List ν) (remotes : List (ν × Nat)) (round extra : Nat)
    (target : Option Nat) (busy : List ν) :
    (selectTargetReplicationPeersAvoidingBusy m target acks remotes round extra busy).peers =
      selectTargetReplicationPeers m target acks remotes round extra ∨
    ((selectTargetReplicationPeersAvoidingBusy m target acks remotes round extra busy).peers =
        selectTargetReplicationPeers m target acks (remotes.filter fun remote => remote.1 ∉ busy) round extra ∧
      m.quorumMet (acks ++ selectTargetReplicationPeers m target acks
        (remotes.filter fun remote => remote.1 ∉ busy) round extra) = true) := by
  simp only [selectTargetReplicationPeersAvoidingBusy]
  split
  · exact .inl rfl
  · split
    · exact .inl rfl
    · split
      · exact .inl rfl
      · rename_i hmet
        exact .inr ⟨rfl, by simpa using hmet⟩

theorem avoidingBusy_ready (hm : m.WellFormed) (hnodup : (ids remotes).Nodup) (busy : List ν)
    (hready : m.quorumMet (acks ++ (ids remotes).filter (· ∉ busy)) = true) :
    ∀ x ∈ (selectTargetReplicationPeersAvoidingBusy m (some target) acks remotes round extra busy).peers,
      x ∉ busy := by
  rw [← ids_filter] at hready
  have hnodup' : (ids (remotes.filter fun remote => remote.1 ∉ busy)).Nodup := by
    rw [ids_filter]
    exact hnodup.filter _
  obtain ⟨hsub, hcomplete⟩ := select_completes acks target round extra hm hnodup'
  intro x hx hbusy
  simp only [selectTargetReplicationPeersAvoidingBusy] at hx
  split at hx
  · -- nobody busy was selected
    rename_i hcond
    simp only [Option.isNone_some, Bool.false_or, Bool.or_eq_true, List.isEmpty_iff, Bool.not_eq_true',
      List.any_eq_false, decide_eq_true_eq] at hcond
    rcases hcond with (hnil | hnil) | hnone
    · rw [hnil] at hx
      exact absurd hx List.not_mem_nil
    · rw [hnil] at hbusy
      exact absurd hbusy List.not_mem_nil
    · exact hnone x hx hbusy
  · split at hx
    · -- with no ready peer the quorum was met before, and nobody is selected
      rename_i hempty
      rw [List.isEmpty_iff.1 hempty, ids, List.map_nil, List.append_nil] at hready
      simp [selectTargetReplicationPeers, hready] at hx
    · split at hx
      · rename_i hnot
        rw [hcomplete hready] at hnot
        exact absurd hnot (by simp)
      · have hmem := hsub hx
        rw [ids_filter, List.mem_filter] at hmem
        simpa [hbusy] using hmem.2

/-- **Fan-out is sufficient and minimal.** If the answers so far together with all
remote peers complete the quorum, the peers selected for a target index complete it,
and no fewer would; otherwise all are selected. Avoiding busy peers, with any number
of extra ones, the quorum is completed all the same, and without a busy peer whenever
the others suffice. -/
theorem selectTargetReplicationPeers_minimal (m : RaftMembership ν) (hm : m.WellFormed) (acks : List ν)
    (remotes : List (ν × Nat)) (hnodup : (remotes.map Prod.fst).Nodup) (target round : Nat) :
    (m.quorumMet (acks ++ remotes.map Prod.fst) = true →
      selectTargetReplicationPeers m (some target) acks remotes round 0 ⊆ remotes.map Prod.fst ∧
      (selectTargetReplicationPeers m (some target) acks remotes round 0).Nodup ∧
      m.quorumMet (acks ++ selectTargetReplicationPeers m (some target) acks remotes round 0) = true ∧
      ∀ T : List ν, T ⊆ remotes.map Prod.fst → m.quorumMet (acks ++ T) = true →
        (selectTargetReplicationPeers m (some target) acks remotes round 0).length ≤ T.length) ∧
    (m.quorumMet (acks ++ remotes.map Prod.fst) = false →
      selectTargetReplicationPeers m (some target) acks remotes round 0 = remotes.map Prod.fst) ∧
    ∀ (extra : Nat) (busy : List ν),
      (m.quorumMet (acks ++ remotes.map Prod.fst) = true → m.quorumMet (acks ++
        (selectTargetReplicationPeersAvoidingBusy m (some target) acks remotes round extra busy).peers) = true) ∧
      (m.quorumMet (acks ++ (remotes.map Prod.fst).filter (· ∉ busy)) = true →
        ∀ x ∈ (selectTargetReplicationPeersAvoidingBusy m (some target) acks remotes round extra busy).peers,
          x ∉ busy) := by
  refine ⟨fun hall => ?_, fun hnot => ?_, fun extra busy => ⟨fun hall => ?_, avoidingBusy_ready hm hnodup busy⟩⟩
  · have hselect := select_completes acks target round 0 hm hnodup
    have hmin := select_minimal target round hm hnodup hall
    exact ⟨hselect.1, hmin.1, hselect.2 hall, hmin.2⟩
  · rcases select_cases acks target round 0 hm hnodup with
      ⟨hmet, _⟩ | ⟨_, hids⟩ | ⟨hall, _⟩
    · rw [RaftMembership.quorumMet_mono (List.subset_append_left _ _) hmet] at hnot
      exact absurd hnot (by simp)
    · exact hids
    · exact absurd (hall.symm.trans hnot) (by simp)
  · rcases avoidingBusy_peers m acks remotes round extra (some target) busy with hsame | ⟨hready, hmet⟩
    · rw [hsame]
      exact (select_completes acks target round extra hm hnodup).2 hall
    · rw [hready]
      exact hmet

/-- A change from three voters to three others with one in common; the leader is of
the old ones, and its first two remote peers suffice. -/
theorem selectTargetReplicationPeers_minimal_joint :
    (RaftMembership.joint [1, 2, 3] [3, 4, 5] : RaftMembership Nat).quorumMet
      ([1] ++ [(2, 7), (3, 4), (4, 9), (5, 0)].map Prod.fst) = true ∧
    (selectTargetReplicationPeers (RaftMembership.joint [1, 2, 3] [3, 4, 5]) (some 9) [1]
      [(2, 7), (3, 4), (4, 9), (5, 0)] 1 0).length ≤ [3, 4].length :=
  ⟨by decide, ((selectTargetReplicationPeers_minimal (RaftMembership.joint [1, 2, 3] [3, 4, 5]) (by decide) [1]
    [(2, 7), (3, 4), (4, 9), (5, 0)] (by decide) 9 1).1 (by decide)).2.2.2 [3, 4] (by decide) (by decide)⟩

end Select

end LiveMutex.Raft
