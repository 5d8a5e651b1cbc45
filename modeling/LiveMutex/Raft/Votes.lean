/-
What is left of a vote: the record on disk.

`write_hard_state` does not replace a vote of the same term, whatever it is asked
to write. So a node that gave its vote goes on having it on disk until its term is
over (`Keeps`), and gives no second one, unless a write of the other policy takes it
away: `write_hard_state_clearing_vote` is called when a membership comes into force
that the candidate, or the voter, is not in.
-/
import LiveMutex.Raft.NodeFacts
import LiveMutex.Raft.Cluster

namespace LiveMutex.Raft

variable {ν α σ : Type} [DecidableEq ν] {config : BrokerRaftConfig ν α σ} {n n' : RaftNode ν α σ} {k : Nat}

/-- Term and vote do not go back. -/
structure RaftHardState.Keeps (p p' : RaftHardState ν) : Prop where
  term : p.currentTerm ≤ p'.currentTerm
  vote : p'.currentTerm = p.currentTerm → ∀ v, p.votedFor = some v → p'.votedFor = some v

omit [DecidableEq ν] in
theorem RaftHardState.Keeps.refl {p : RaftHardState ν} : p.Keeps p :=
  ⟨Nat.le_refl _, fun _ _ h => h⟩

/-- A forced write finds a vote of its term. -/
def RaftHardState.losesVote (p state : RaftHardState ν) : Bool :=
  p.currentTerm == state.currentTerm && p.votedFor.isSome

/-- Whatever is written, the term and the commit index go forward. -/
theorem RaftHardState.write_forward {p p' state : RaftHardState ν} {policy : HardStateVotePolicy}
    (hw : p.write policy state = some p') :
    p'.currentTerm = max p.currentTerm state.currentTerm ∧ p'.commitIndex = max state.commitIndex p.commitIndex := by
  simp only [RaftHardState.write] at hw
  by_cases hlt : state.currentTerm < p.currentTerm
  · simp only [hlt, ite_true] at hw
    have hp' : p'.currentTerm = p.currentTerm ∧ p'.commitIndex = max state.commitIndex p.commitIndex := by
      split at hw
      · split at hw
        · cases hw; exact ⟨rfl, rfl⟩
        · cases hw
      · split at hw <;> cases hw <;> exact ⟨rfl, rfl⟩
      · cases hw; exact ⟨rfl, rfl⟩
    exact ⟨by omega, hp'.2⟩
  · simp only [hlt, ite_false] at hw
    have hp' : p'.currentTerm = state.currentTerm ∧ p'.commitIndex = max state.commitIndex p.commitIndex := by
      split at hw
      · split at hw
        · split at hw
          · cases hw; exact ⟨rfl, rfl⟩
          · cases hw
        · split at hw <;> cases hw <;> exact ⟨rfl, rfl⟩
        · cases hw; exact ⟨rfl, rfl⟩
      · cases hw; exact ⟨rfl, rfl⟩
    exact ⟨by omega, hp'.2⟩

/-- What a write leaves of the votes on disk. -/
theorem RaftHardState.write_keeps {p p' state : RaftHardState ν} {policy : HardStateVotePolicy}
    (hw : p.write policy state = some p')
    (hkeep : policy = .preserveSameTermVote ∨ p.losesVote state = false) :
    p.Keeps p' ∧ (p.currentTerm ≤ state.currentTerm → ∀ v, state.votedFor = some v → p'.votedFor = some v) := by
  have hterm := (RaftHardState.write_forward hw).1
  simp only [RaftHardState.write] at hw
  by_cases hlt : state.currentTerm < p.currentTerm
  · -- a late write only brings its commit index
    simp only [hlt, ite_true] at hw
    refine ⟨⟨by omega, fun _ v hv => ?_⟩, fun hle => absurd hle (Nat.not_le.2 hlt)⟩
    rw [hv] at hw
    simp only [ite_true, Option.some.injEq] at hw
    subst hw
    rfl
  · simp only [hlt, ite_false] at hw
    by_cases heq : state.currentTerm = p.currentTerm
    · simp only [heq, ite_true] at hw
      split at hw
      · rename_i existing next hex hnx
        split at hw
        · rename_i hsame
          cases hw
          refine ⟨⟨Nat.le_refl _, fun _ v hv => ?_⟩, fun _ v hv => hv⟩
          rw [← hv, hex, hnx, hsame]
        · cases hw
      · rename_i existing hex hnx
        split at hw
        · cases hw
          refine ⟨⟨Nat.le_refl _, fun _ v hv => hex ▸ hv⟩, fun _ v hv => ?_⟩
          rw [hnx] at hv
          cases hv
        · rename_i hpolicy
          rcases hkeep with hkeep | hkeep
          · exact absurd hkeep hpolicy
          · simp [RaftHardState.losesVote, heq, hex] at hkeep
      · rename_i hex
        cases hw
        refine ⟨⟨Nat.le_refl _, fun _ v hv => ?_⟩, fun _ v hv => hv⟩
        rw [hex] at hv
        cases hv
    · simp only [heq, ite_false, Option.some.injEq] at hw
      subst hw
      exact ⟨⟨by simp only; omega, fun h => absurd h heq⟩, fun _ v hv => hv⟩

/-! ## A node's ballot -/

/-- The writes a task has prepared and not made yet. -/
def ApplyTask.writes : ApplyTask ν α σ → List (RaftHardState ν)
  | .changing change _ => change.hardState.toList
  | .restoring _ _ (.persist hardState _) => hardState.toList
  | .restoring _ _ (.changing change) => change.hardState.toList
  | _ => []

def RaftNode.pendingWrites (n : RaftNode ν α σ) : List (RaftHardState ν) :=
  n.committing ++ n.applyTask.writes

/-- What is in memory is on disk, and no write that is still to come is of a later
term. -/
structure BallotOk (n : RaftNode ν α σ) : Prop where
  term : n.hardState.currentTerm = n.runtime.currentTerm
  vote : ∀ v, n.runtime.votedFor = some v → n.hardState.votedFor = some v
  pending : ∀ w ∈ n.pendingWrites, w.currentTerm ≤ n.runtime.currentTerm

/-- An event that neither writes the hard state nor touches term and vote. -/
structure Quiet (n n' : RaftNode ν α σ) : Prop where
  hardState : n'.hardState = n.hardState
  term : n'.runtime.currentTerm = n.runtime.currentTerm
  vote : ∀ v, n'.runtime.votedFor = some v → n.runtime.votedFor = some v
  pending : ∀ w ∈ n'.pendingWrites, w ∈ n.pendingWrites ∨ w.currentTerm = n.runtime.currentTerm

omit [DecidableEq ν] in
theorem Quiet.of_eq (hh : n'.hardState = n.hardState) (ht : n'.runtime.currentTerm = n.runtime.currentTerm)
    (hv : n'.runtime.votedFor = n.runtime.votedFor) (hp : n'.pendingWrites = n.pendingWrites) : Quiet n n' :=
  ⟨hh, ht, fun _ h => hv ▸ h, fun _ hw => .inl (hp ▸ hw)⟩

omit [DecidableEq ν] in
theorem Quiet.ballotOk (hq : Quiet n n') (h : BallotOk n) : BallotOk n' := by
  refine ⟨?_, ?_, ?_⟩
  · rw [hq.hardState, hq.term, h.term]
  · intro v hv
    rw [hq.hardState]
    exact h.vote v (hq.vote v hv)
  · intro w hw
    rw [hq.term]
    rcases hq.pending w hw with hw | hw
    · exact h.pending w hw
    · exact Nat.le_of_eq hw

/-- Where a round comes from: the event has begun it, or it is one the node had, with
the votes it had and what came in with the event. -/
def RoundFrom (config : BrokerRaftConfig ν α σ) (n : RaftNode ν α σ) (ev : Event ν α σ)
    (round' : RaftCandidateRound ν) : Prop :=
  (ev = .beginElection ∧
    round' = ⟨n.runtime.currentTerm + 1, n.runtime.membership, none, none, [config.nodeId]⟩) ∨
  ∃ round ∈ n.elections, round'.term = round.term ∧ round'.membership = round.membership ∧
    ∀ v ∈ round'.votes, v ∈ round.votes ∨
      ∃ r, ev.received = some (.voteGranted v r) ∧ r.term = round.term ∧ r.candidateId = config.nodeId

/-- What an event makes of the votes: those it gives are on disk, and those a round
counts were counted before, are its own, or came in with the event. -/
structure Casts (config : BrokerRaftConfig ν α σ) (n : RaftNode ν α σ) (ev : Event ν α σ) (n' : RaftNode ν α σ)
    (out : List (Message ν α σ)) : Prop where
  ballot : BallotOk n'
  keeps : n.hardState.Keeps n'.hardState
  given : ∀ b ∈ Cluster.votedBy config.nodeId n out ev,
    b.1 = config.nodeId ∧ b.2.1 = n'.hardState.currentTerm ∧ n'.hardState.votedFor = some b.2.2
  sent : ∀ b ∈ out.filterMap Cluster.voteOf, b ∈ Cluster.votedBy config.nodeId n out ev
  rounds : ∀ round' ∈ n'.elections, RoundFrom config n ev round'

variable {ev : Event ν α σ} {out : List (Message ν α σ)}

omit [DecidableEq ν] in
theorem RoundFrom.of_mem {round : RaftCandidateRound ν} (h : round ∈ n.elections) : RoundFrom config n ev round :=
  .inr ⟨round, h, rfl, rfl, fun _ hv => .inl hv⟩

omit [DecidableEq ν] in
/-- No vote is given, and the rounds are as before. -/
theorem Casts.of_ballot (h : BallotOk n') (hk : n.hardState.Keeps n'.hardState)
    (hv : Cluster.votedBy config.nodeId n out ev = []) (ho : out.filterMap Cluster.voteOf = [])
    (hr : n'.elections = n.elections) : Casts config n ev n' out where
  ballot := h
  keeps := hk
  given := by simp [hv]
  sent := by simp [ho]
  rounds round hround := .of_mem (hr ▸ hround)

omit [DecidableEq ν] in
theorem Casts.of_quiet (hb : BallotOk n) (hq : Quiet n n') (hv : Cluster.votedBy config.nodeId n out ev = [])
    (ho : out.filterMap Cluster.voteOf = []) (hr : n'.elections = n.elections) : Casts config n ev n' out :=
  .of_ballot (hq.ballotOk hb) (hq.hardState ▸ .refl) hv ho hr

/-! ## Events that write the hard state -/

omit [DecidableEq ν] in
theorem pending_le {t : Nat} (h : BallotOk n) (hp : n'.pendingWrites = n.pendingWrites)
    (ht : n.runtime.currentTerm ≤ t) : ∀ w ∈ n'.pendingWrites, w.currentTerm ≤ t :=
  fun w hw => Nat.le_trans (h.pending w (hp ▸ hw)) ht

/-- A write of the term the node is in, or of a later one it enters with it. -/
theorem writeHardState_spec {state : RaftHardState ν} (h : BallotOk n) (ht : n.runtime.currentTerm ≤ state.currentTerm)
    (hw : n.writeHardState state = some n') :
    ∃ hardState, n' = { n with hardState } ∧ hardState.currentTerm = state.currentTerm ∧
      n.hardState.Keeps hardState ∧ ∀ v, state.votedFor = some v → hardState.votedFor = some v := by
  simp only [RaftNode.writeHardState, Option.map_eq_some_iff] at hw
  obtain ⟨hardState, hw, rfl⟩ := hw
  have hterm := (RaftHardState.write_forward hw).1
  obtain ⟨hkeeps, hvote⟩ := RaftHardState.write_keeps hw (.inl rfl)
  have hle : n.hardState.currentTerm ≤ state.currentTerm := h.term ▸ ht
  exact ⟨hardState, rfl, by omega, hkeeps, hvote hle⟩

theorem casts_beginElection (h : BallotOk n) (hs : n.beginCandidateElection config = some n') :
    Casts config n .beginElection n' [] := by
  simp only [RaftNode.beginCandidateElection] at hs
  split at hs
  · obtain ⟨n₁, hw, rfl⟩ := Option.map_eq_some_iff.1 hs
    obtain ⟨hardState, rfl, hterm, hkeeps, hvote⟩ := writeHardState_spec h (Nat.le_succ _) hw
    refine ⟨⟨hterm, fun v hv => hvote v hv, pending_le h rfl (Nat.le_succ _)⟩, hkeeps, ?_, by simp, ?_⟩
    · intro b hb
      simp only [Cluster.votedBy, List.mem_singleton] at hb
      subst hb
      exact ⟨rfl, hterm.symm, hvote _ rfl⟩
    · intro round hround
      rcases List.mem_cons.1 hround with rfl | hround
      · exact .inl ⟨rfl, rfl⟩
      · exact .of_mem hround
  · cases hs

theorem casts_handleRequestVote {r : RequestVote ν} {beforeDeadline : Bool} (h : BallotOk n)
    (hs : n.handleRequestVote config r beforeDeadline = some n') :
    Casts config n (.handleRequestVote r beforeDeadline) n' [] := by
  simp only [RaftNode.handleRequestVote] at hs
  split at hs
  · cases hs
  · rename_i hguard
    simp only [not_or, not_and] at hguard
    obtain ⟨_, _, _, hterm, _⟩ := hguard
    have hle : n.runtime.currentTerm ≤ r.term := by omega
    split at hs
    · obtain ⟨n₁, hw, rfl⟩ := Option.map_eq_some_iff.1 hs
      obtain ⟨hardState, rfl, hterm', hkeeps, hvote⟩ := writeHardState_spec h hle hw
      exact .of_ballot ⟨hterm', fun v hv => hvote v hv, pending_le h rfl hle⟩ hkeeps rfl rfl rfl
    · split at hs
      · obtain ⟨n₁, hw, rfl⟩ := Option.map_eq_some_iff.1 hs
        obtain ⟨hardState, rfl, hterm', hkeeps, hvote⟩ := writeHardState_spec h hle hw
        exact .of_ballot ⟨hterm', fun v hv => hvote v hv, pending_le h rfl hle⟩ hkeeps rfl rfl rfl
      · cases hs

/-- An answer that grants is backed by the vote in memory, and so by the disk. -/
theorem casts_answerRequestVote (h : BallotOk n) (hs : n.answerRequestVote config k = some (n', out)) :
    Casts config n (.answerRequestVote k) n' out := by
  simp only [RaftNode.answerRequestVote, Option.bind_eq_bind, Option.bind_eq_some_iff] at hs
  obtain ⟨r, _, hs⟩ := hs
  have hq : Quiet n { n with voting := n.voting.eraseIdx k } := .of_eq rfl rfl rfl rfl
  split at hs
  · rename_i hstill
    obtain ⟨hterm, _, _, hvote⟩ := hstill
    cases hs
    refine ⟨hq.ballotOk h, .refl, ?_, fun b hb => hb, fun round hround => .of_mem hround⟩
    intro b hb
    simp only [Cluster.votedBy, Cluster.voteOf, List.filterMap_cons, List.filterMap_nil, List.mem_singleton] at hb
    subst hb
    exact ⟨rfl, hterm.symm.trans h.term.symm, h.vote _ hvote⟩
  · cases hs
    exact .of_quiet h hq rfl rfl rfl

theorem casts_stepDown {term : Nat} {leaderId : Option ν} (h : BallotOk n)
    (hs : n.stepDown config term leaderId = some n') : Casts config n (.stepDown term leaderId) n' [] := by
  simp only [RaftNode.stepDown] at hs
  split at hs
  · rename_i hle
    obtain ⟨n₁, hw, rfl⟩ := Option.map_eq_some_iff.1 hs
    obtain ⟨hardState, rfl, hterm, hkeeps, hvote⟩ := writeHardState_spec h hle hw
    exact .of_ballot ⟨hterm, fun v hv => hvote v hv, pending_le h rfl hle⟩ hkeeps rfl rfl rfl
  · cases hs

/-- What a request of a leader does to term and vote: a later term starts with no
vote. -/
theorem enterTerm_spec {t : Nat} (h : BallotOk n) (hle : n.runtime.currentTerm ≤ t) (hw : n.enterTerm t = some n') :
    ∃ hardState, n' = { n with hardState } ∧ hardState.currentTerm = t ∧ n.hardState.Keeps hardState ∧
      ∀ v, (if n.runtime.currentTerm < t then none else n.runtime.votedFor) = some v → hardState.votedFor = some v := by
  unfold RaftNode.enterTerm at hw
  by_cases hlt : n.runtime.currentTerm < t
  · rw [if_pos hlt] at hw
    obtain ⟨hardState, rfl, hterm, hkeeps, _⟩ := writeHardState_spec h hle hw
    refine ⟨hardState, rfl, hterm, hkeeps, fun v hv => ?_⟩
    rw [if_pos hlt] at hv
    cases hv
  · rw [if_neg hlt] at hw ⊢
    cases hw
    exact ⟨n.hardState, rfl, by rw [h.term]; omega, .refl, h.vote⟩

theorem casts_prepareAppendEntries {r : AppendEntries ν α} (h : BallotOk n)
    (hs : n.prepareAppendEntries config r = some n') : Casts config n (.prepareAppendEntries r) n' [] := by
  simp only [RaftNode.prepareAppendEntries] at hs
  split at hs
  · cases hs
  · rename_i hguard
    simp only [not_or, not_and] at hguard
    obtain ⟨_, _, hterm, _, _⟩ := hguard
    have hle : n.runtime.currentTerm ≤ r.term := by omega
    simp only [Option.bind_eq_bind, Option.bind_eq_some_iff] at hs
    obtain ⟨n₁, hw, hs⟩ := hs
    cases hs
    obtain ⟨hardState, rfl, hterm', hkeeps, hvote⟩ := enterTerm_spec h hle hw
    exact .of_ballot ⟨hterm', hvote, pending_le h rfl hle⟩ hkeeps rfl rfl rfl

theorem casts_acceptSnapshot {r : InstallSnapshot ν σ} (h : BallotOk n)
    (hs : n.acceptSnapshot config r = some n') : Casts config n (.acceptSnapshot r) n' [] := by
  simp only [RaftNode.acceptSnapshot] at hs
  split at hs
  · cases hs
  · rename_i hguard
    simp only [not_or, not_and] at hguard
    obtain ⟨_, _, hterm, _⟩ := hguard
    have hle : n.runtime.currentTerm ≤ r.term := by omega
    simp only [Option.bind_eq_bind, Option.bind_eq_some_iff] at hs
    obtain ⟨n₁, hw, hs⟩ := hs
    cases hs
    obtain ⟨hardState, rfl, hterm', hkeeps, hvote⟩ := enterTerm_spec h hle hw
    exact .of_ballot ⟨hterm', hvote, pending_le h rfl hle⟩ hkeeps rfl rfl rfl

theorem casts_finishAppendEntries (h : BallotOk n) (hs : n.finishAppendEntries config k = some (n', out)) :
    Casts config n (.finishAppendEntries k) n' out := by
  simp only [RaftNode.finishAppendEntries, Option.bind_eq_bind, Option.bind_eq_some_iff] at hs
  obtain ⟨handler, _, hs⟩ := hs
  have hq : Quiet n { n with handlers := n.handlers.eraseIdx k } := .of_eq rfl rfl rfl rfl
  split at hs
  · split at hs
    · simp only [RaftNode.persistCommit, Option.bind_eq_some_iff] at hs
      obtain ⟨n₁, hw, hs⟩ := hs
      cases hs
      split at hw
      · cases hw
        exact .of_ballot ⟨h.term, h.vote, h.pending⟩ .refl rfl rfl rfl
      · obtain ⟨hardState, rfl, hterm, hkeeps, hvote⟩ := writeHardState_spec (hq.ballotOk h) (Nat.le_refl _) hw
        exact .of_ballot ⟨hterm, hvote, h.pending⟩ hkeeps rfl rfl rfl
    · cases hs
      exact .of_quiet h hq rfl rfl rfl
  · cases hs

/-- A write that was prepared before: the term is the one the disk has already. -/
theorem BallotOk.lateWrite {state hardState : RaftHardState ν} {policy : HardStateVotePolicy} (h : BallotOk n)
    (hle : state.currentTerm ≤ n.runtime.currentTerm) (hw : n.hardState.write policy state = some hardState)
    (hkeep : policy = .preserveSameTermVote ∨ n.hardState.losesVote state = false) :
    hardState.currentTerm = n.runtime.currentTerm ∧ n.hardState.Keeps hardState ∧
      ∀ v, n.runtime.votedFor = some v → hardState.votedFor = some v := by
  have hterm := (RaftHardState.write_forward hw).1
  obtain ⟨hkeeps, _⟩ := RaftHardState.write_keeps hw hkeep
  have hsame : hardState.currentTerm = n.hardState.currentTerm := by rw [hterm, h.term]; omega
  exact ⟨hsame.trans h.term, hkeeps, fun v hv => hkeeps.vote hsame v (h.vote v hv)⟩

theorem casts_writeCommit (h : BallotOk n) (hs : n.writeCommit k = some n') :
    Casts config n (.writeCommit k) n' [] := by
  simp only [RaftNode.writeCommit, RaftNode.writeHardState, Option.bind_eq_bind, Option.bind_eq_some_iff,
    Option.map_eq_some_iff] at hs
  obtain ⟨state, hk, hardState, hw, rfl⟩ := hs
  have hle := h.pending state (List.mem_append_left _ (List.mem_of_getElem? hk))
  obtain ⟨hterm, hkeeps, hvote⟩ := h.lateWrite hle hw (.inl rfl)
  refine .of_ballot ⟨hterm, hvote, ?_⟩ hkeeps rfl rfl rfl
  intro w hw'
  refine h.pending w ?_
  rcases List.mem_append.1 hw' with hw' | hw'
  · exact List.mem_append_left _ (List.mem_of_mem_eraseIdx hw')
  · exact List.mem_append_right _ hw'

/-! ## What holds the apply lock -/

omit [DecidableEq ν] in
/-- A task whose writes are of the current term, in place of one that was there. -/
theorem Quiet.setTask {task : ApplyTask ν α σ}
    (ht : ∀ w ∈ task.writes, w ∈ n.applyTask.writes ∨ w.currentTerm = n.runtime.currentTerm) :
    Quiet n { n with applyTask := task } := by
  refine ⟨rfl, rfl, fun _ h => h, fun w hw => ?_⟩
  rcases List.mem_append.1 hw with hw | hw
  · exact .inl (List.mem_append_left _ hw)
  · exact (ht w hw).imp_left (List.mem_append_right _)

theorem Quiet.prepareMembership {membership : RaftMembership ν} :
    ∀ w ∈ (n.prepareMembership config membership).hardState.toList, w.currentTerm = n.runtime.currentTerm := by
  intro w hw
  simp only [RaftNode.prepareMembership] at hw
  split at hw
  · simp only [Option.toList_some, List.mem_singleton] at hw
    rw [hw]
  · simp at hw

theorem Quiet.enterMembership {membership : RaftMembership ν} : Quiet n (n.enterMembership config membership) := by
  refine ⟨rfl, rfl, fun v hv => ?_, fun _ hw => .inl hw⟩
  simp only [RaftNode.enterMembership] at hv
  split at hv
  · exact (Option.filter_eq_some_iff.1 hv).1
  · cases hv

/-- The forced write, where it takes no vote away. -/
theorem BallotOk.clearVote {state : RaftHardState ν} {task : ApplyTask ν α σ} (h : BallotOk n)
    (hpend : state ∈ n.pendingWrites) (hkeep : n.hardState.losesVote state = false)
    (htask : ∀ w ∈ task.writes, w ∈ n.applyTask.writes) (hs : n.clearVote state task = some n') :
    BallotOk n' ∧ n.hardState.Keeps n'.hardState ∧ n'.elections = n.elections := by
  simp only [RaftNode.clearVote, Option.map_eq_some_iff] at hs
  obtain ⟨hardState, hw, rfl⟩ := hs
  obtain ⟨hterm, hkeeps, hvote⟩ := h.lateWrite (h.pending state hpend) hw (.inr hkeep)
  refine ⟨⟨hterm, hvote, ?_⟩, hkeeps, rfl⟩
  intro w hw'
  refine h.pending w ?_
  rcases List.mem_append.1 hw' with hw' | hw'
  · exact List.mem_append_left _ hw'
  · exact List.mem_append_right _ (htask w hw')

/-- An event takes a vote away from the disk: a forced write finds one of its term. -/
def RaftNode.clearsVote (n : RaftNode ν α σ) : Event ν α σ → Bool
  | .applyNext =>
    match n.applyTask with
    | .changing ⟨_, some state⟩ _ => n.hardState.losesVote state
    | .restoring _ _ (.changing ⟨_, some state⟩) => n.hardState.losesVote state
    | _ => false
  | .clearRemovedVote => n.hardState.losesVote ⟨n.runtime.currentTerm, none, n.runtime.commitIndex⟩
  | _ => false

theorem casts_restoreNext {installedIndex : Nat} {payload : SnapshotPayload ν σ} {stage : RestoreStage ν}
    (h : BallotOk n) (htask : n.applyTask = .restoring installedIndex payload stage)
    (hkeep : n.clearsVote .applyNext = false) (hs : n.restoreNext config installedIndex payload stage = some n') :
    Casts config n .applyNext n' [] := by
  match stage with
  | .persist none shouldApply =>
    cases hs
    exact .of_quiet h (.setTask (by simp [ApplyTask.writes])) rfl rfl rfl
  | .persist (some state) shouldApply =>
    simp only [RaftNode.restoreNext, RaftNode.writeHardState, Option.map_eq_some_iff] at hs
    obtain ⟨_, ⟨hardState, hw, rfl⟩, rfl⟩ := hs
    have hle := h.pending state (List.mem_append_right _ (by simp [htask, ApplyTask.writes]))
    obtain ⟨hterm, hkeeps, hvote⟩ := h.lateWrite hle hw (.inl rfl)
    refine .of_ballot ⟨hterm, hvote, ?_⟩ hkeeps rfl rfl rfl
    intro w hw'
    simp only [RaftNode.pendingWrites, ApplyTask.writes, List.append_nil] at hw'
    exact h.pending w (List.mem_append_left _ hw')
  | .persisted shouldApply =>
    simp only [RaftNode.restoreNext] at hs
    split at hs
    · cases hs
      exact .of_quiet h (.setTask fun w hw => .inr (Quiet.prepareMembership w hw)) rfl rfl rfl
    · cases hs
      exact .of_quiet h (.setTask (by simp [ApplyTask.writes])) rfl rfl rfl
  | .changing ⟨membership, some state⟩ =>
    obtain ⟨hb, hk, he⟩ := h.clearVote (by simp [RaftNode.pendingWrites, htask, ApplyTask.writes])
      (by simpa [RaftNode.clearsVote, htask] using hkeep) (by simp [ApplyTask.writes]) hs
    exact .of_ballot hb hk rfl rfl he
  | .changing ⟨membership, none⟩ =>
    cases hs
    have hq : Quiet n (n.enterMembership config membership) := .enterMembership
    exact .of_ballot ((Quiet.setTask (by simp [ApplyTask.writes])).ballotOk (hq.ballotOk h)) .refl rfl rfl rfl
  | .changed shouldApply =>
    have hq : Quiet n { n with applyTask := .entries [] } := .setTask (by simp [ApplyTask.writes])
    have hb : BallotOk { n with applyTask := .entries [] } := hq.ballotOk h
    cases shouldApply with
    | false =>
      cases hs
      exact .of_ballot ⟨h.term, h.vote, hb.pending⟩ .refl rfl rfl rfl
    | true =>
      simp only [RaftNode.restoreNext] at hs
      split at hs
      · cases hs
        exact .of_quiet h hq rfl rfl rfl
      · cases hs
        exact .of_ballot ⟨h.term, h.vote, hb.pending⟩ .refl rfl rfl rfl

theorem casts_applyNext (h : BallotOk n) (hkeep : n.clearsVote .applyNext = false)
    (hs : n.applyNext config = some n') : Casts config n .applyNext n' [] := by
  have hdone : ∀ entry rest, Quiet n (n.applied entry rest) := by
    intro entry rest
    have hq : Quiet n { n with applyTask := .entries rest } := .setTask (by simp [ApplyTask.writes])
    exact ⟨rfl, rfl, fun _ h => h, hq.pending⟩
  match htask : n.applyTask with
  | .entries [] => simp [RaftNode.applyNext, htask] at hs
  | .entries (entry :: rest) =>
    simp only [RaftNode.applyNext, htask] at hs
    split at hs
    · cases hs
      exact .of_quiet h (hdone entry rest) rfl rfl rfl
    · cases hs
      exact .of_quiet h ⟨rfl, rfl, fun _ h => h, (hdone entry rest).pending⟩ rfl rfl rfl
    · split at hs
      · cases hs
        exact .of_quiet h ⟨rfl, rfl, fun _ h => h, (hdone entry rest).pending⟩ rfl rfl rfl
      · cases hs
        exact .of_quiet h ⟨rfl, rfl, fun _ h => h, (hdone entry rest).pending⟩ rfl rfl rfl
      · cases hs
        exact .of_quiet h (.setTask (by simp [ApplyTask.writes])) rfl rfl rfl
    · cases hs
      exact .of_quiet h (.setTask fun w hw => .inr (Quiet.prepareMembership w hw)) rfl rfl rfl
  | .changing ⟨membership, some state⟩ rest =>
    simp only [RaftNode.applyNext, htask] at hs
    obtain ⟨hb, hk, he⟩ := h.clearVote (by simp [RaftNode.pendingWrites, htask, ApplyTask.writes])
      (by simpa [RaftNode.clearsVote, htask] using hkeep) (by simp [ApplyTask.writes]) hs
    exact .of_ballot hb hk rfl rfl he
  | .changing ⟨membership, none⟩ (entry :: rest) =>
    simp only [RaftNode.applyNext, htask] at hs
    cases hs
    have hq : Quiet n (n.enterMembership config membership) := .enterMembership
    exact .of_quiet h ⟨rfl, rfl, hq.vote, (hdone entry rest).pending⟩ rfl rfl rfl
  | .changing ⟨membership, none⟩ [] => simp [RaftNode.applyNext, htask] at hs
  | .restoring installedIndex payload stage =>
    simp only [RaftNode.applyNext, htask] at hs
    exact casts_restoreNext h htask hkeep hs

theorem casts_clearRemovedVote (h : BallotOk n) (hkeep : n.clearsVote .clearRemovedVote = false)
    (hs : n.clearRemovedVote = some n') : Casts config n .clearRemovedVote n' [] := by
  simp only [RaftNode.clearRemovedVote] at hs
  split at hs
  · rename_i hvote
    -- a vote in memory is on disk, so the write would take it away
    obtain ⟨v, hv⟩ : ∃ v, n.runtime.votedFor = some v := by
      cases hv : n.runtime.votedFor with
      | none => simp [hv] at hvote
      | some v => exact ⟨v, rfl⟩
    simp [RaftNode.clearsVote, RaftHardState.losesVote, h.term, h.vote v hv] at hkeep
  · cases hs

omit [DecidableEq ν] in
/-- A node that comes up has what was on disk, and no round. -/
theorem Casts.of_restart (h : BallotOk n') (hk : n.hardState.Keeps n'.hardState) (he : n'.elections = []) :
    Casts config n .restart n' [] where
  ballot := h
  keeps := hk
  given := by simp [Cluster.votedBy]
  sent := by simp
  rounds := by simp [he]

theorem casts_restart (hs : n.restart config = some n') : Casts config n .restart n' [] := by
  simp only [RaftNode.restart] at hs
  split at hs
  · cases hs
  · have hkeeps : n.hardState.Keeps ⟨max n.hardState.currentTerm n.log.lastTerm,
        if max n.hardState.currentTerm n.log.lastTerm = n.hardState.currentTerm then n.hardState.votedFor else none,
        max n.hardState.commitIndex n.log.snapshotIndex⟩ := by
      refine ⟨Nat.le_max_left _ _, fun heq v hv => ?_⟩
      simp only at heq ⊢
      rw [if_pos heq]
      exact hv
    simp only [Option.bind_eq_bind, Option.bind_eq_some_iff] at hs
    obtain ⟨responses, _, hs⟩ := hs
    split at hs
    · cases hs
      refine .of_restart ⟨rfl, fun _ hv => hv, fun w hw => ?_⟩ hkeeps rfl
      exact Nat.le_of_eq (Quiet.prepareMembership w hw)
    · cases hs
      exact .of_restart ⟨rfl, fun _ hv => hv, by simp [RaftNode.pendingWrites, ApplyTask.writes]⟩ hkeeps rfl

/-! ## Events that only add a write for later -/

theorem casts_commitLeaderIndex {index : Nat} {ofChange : Bool} (h : BallotOk n)
    (hs : n.commitLeaderIndex config index ofChange = some n') :
    Casts config n (.commitLeaderIndex index ofChange) n' [] := by
  simp only [RaftNode.commitLeaderIndex] at hs
  split at hs
  · cases hs
    refine .of_quiet h ⟨rfl, rfl, fun _ h => h, fun w hw => ?_⟩ rfl rfl rfl
    rcases List.mem_cons.1 hw with rfl | hw
    · exact .inr rfl
    · exact .inl hw
  · cases hs

omit [DecidableEq ν] in
theorem Quiet.restoreFrom {installedIndex : Nat} {payload : SnapshotPayload ν σ} :
    ∀ w ∈ (n.restoreFrom installedIndex payload).writes, w.currentTerm = n.runtime.currentTerm := by
  intro w hw
  simp only [RaftNode.restoreFrom, ApplyTask.writes] at hw
  split at hw
  · simp at hw
  · simp only [Option.toList_some, List.mem_singleton] at hw
    rw [hw]

theorem casts_finishSnapshot (h : BallotOk n) (hs : n.finishSnapshot config k = some (n', out)) :
    Casts config n (.finishSnapshot k) n' out := by
  simp only [RaftNode.finishSnapshot, Option.bind_eq_bind, Option.bind_eq_some_iff] at hs
  obtain ⟨handler, _, hs⟩ := hs
  have hq : Quiet n (n.dropInstall k) := .of_eq rfl rfl rfl rfl
  split at hs
  · split at hs
    · rename_i installedIndex payload _ _ _
      cases hs
      have hset : Quiet n { n with applyTask := n.restoreFrom installedIndex payload } :=
        .setTask fun w hw => .inr (Quiet.restoreFrom w hw)
      exact .of_ballot ⟨h.term, h.vote, (hset.ballotOk h).pending⟩ .refl rfl rfl rfl
    · cases hs
      exact .of_quiet h hq rfl rfl rfl
  · cases hs

omit [DecidableEq ν] in
theorem casts_applyVisibleSnapshot (h : BallotOk n) (hs : n.applyVisibleSnapshot = some n') :
    Casts config n .applyVisibleSnapshot n' [] := by
  simp only [RaftNode.applyVisibleSnapshot, Option.bind_eq_bind, Option.bind_eq_some_iff] at hs
  obtain ⟨snapshot, _, payload, _, hs⟩ := hs
  split at hs
  · split at hs
    · cases hs
      exact .of_quiet h (.setTask fun w hw => .inr (Quiet.restoreFrom w hw)) rfl rfl rfl
    · cases hs
  · cases hs

/-! ## The other events -/

omit [DecidableEq ν] in
/-- An event that has to do with the rounds only. -/
theorem Casts.of_rounds {elections : List (RaftCandidateRound ν)} (h : BallotOk n)
    (hv : Cluster.votedBy config.nodeId n out ev = []) (ho : out.filterMap Cluster.voteOf = [])
    (hr : ∀ round' ∈ elections, RoundFrom config n ev round') :
    Casts config n ev { n with elections } out where
  ballot := ⟨h.term, h.vote, h.pending⟩
  keeps := .refl
  given := by simp [hv]
  sent := by simp [ho]
  rounds := hr

omit [DecidableEq ν] in
/-- A round is written over by one of its term and its membership. -/
theorem RoundFrom.set {round round' : RaftCandidateRound ν} (hk : n.elections[k]? = some round)
    (ht : round'.term = round.term) (hm : round'.membership = round.membership)
    (hv : ∀ v ∈ round'.votes, v ∈ round.votes ∨
      ∃ r, ev.received = some (.voteGranted v r) ∧ r.term = round.term ∧ r.candidateId = config.nodeId) :
    ∀ r' ∈ n.elections.set k round', RoundFrom config n ev r' := by
  intro r' hr'
  rcases List.mem_or_eq_of_mem_set hr' with hr' | rfl
  · exact .of_mem hr'
  · exact .inr ⟨round, List.mem_of_getElem? hk, ht, hm, hv⟩

theorem casts_readLastLogIndex (h : BallotOk n) (hs : n.readLastLogIndex config k = some n') :
    Casts config n (.readLastLogIndex k) n' [] := by
  simp only [RaftNode.readLastLogIndex, Option.bind_eq_bind, Option.bind_eq_some_iff] at hs
  obtain ⟨round, hk, hs⟩ := hs
  split at hs
  · cases hs
    exact .of_rounds h rfl rfl (.set hk rfl rfl fun _ hv => .inl hv)
  · cases hs

omit [DecidableEq ν] in
theorem casts_readLastLogTerm (h : BallotOk n) (hs : n.readLastLogTerm config k = some (n', out)) :
    Casts config n (.readLastLogTerm k) n' out := by
  simp only [RaftNode.readLastLogTerm, Option.bind_eq_bind, Option.bind_eq_some_iff] at hs
  obtain ⟨round, hk, _, _, hs⟩ := hs
  split at hs
  · cases hs
    exact .of_rounds h rfl rfl (.set hk rfl rfl fun _ hv => .inl hv)
  · cases hs

theorem casts_recordVote {voter : ν} {r : RequestVote ν} (h : BallotOk n)
    (hs : n.recordVote config k voter r = some n') : Casts config n (.recordVote k voter r) n' [] := by
  simp only [RaftNode.recordVote, Option.bind_eq_bind, Option.bind_eq_some_iff] at hs
  obtain ⟨round, hk, hs⟩ := hs
  split at hs
  · rename_i hfit
    cases hs
    refine .of_rounds h rfl rfl (.set hk rfl rfl fun v hv => ?_)
    rcases List.mem_cons.1 hv with rfl | hv
    · exact .inr ⟨r, rfl, hfit.1, hfit.2.1⟩
    · exact .inl hv
  · cases hs

theorem casts_becomeLeader (h : BallotOk n) (hs : n.becomeLeader config k = some n') :
    Casts config n (.becomeLeader k) n' [] := by
  simp only [RaftNode.becomeLeader, Option.bind_eq_bind, Option.bind_eq_some_iff] at hs
  obtain ⟨round, hk, hs⟩ := hs
  split at hs
  · cases hs
    have hc : Casts config n (.becomeLeader k) { n with elections := n.elections.eraseIdx k } [] :=
      .of_rounds h rfl rfl fun r' hr' => .of_mem (List.mem_of_mem_eraseIdx hr')
    exact ⟨⟨h.term, h.vote, h.pending⟩, .refl, hc.given, hc.sent, hc.rounds⟩
  · cases hs

/-- The ballot and everything about it is as before. -/
structure Untouched (n n' : RaftNode ν α σ) : Prop where
  hardState : n'.hardState = n.hardState
  term : n'.runtime.currentTerm = n.runtime.currentTerm
  vote : n'.runtime.votedFor = n.runtime.votedFor
  committing : n'.committing = n.committing
  writes : n'.applyTask.writes = n.applyTask.writes
  elections : n'.elections = n.elections

omit [DecidableEq ν] in
theorem Untouched.casts (hu : Untouched n n') (h : BallotOk n) (hv : Cluster.votedBy config.nodeId n out ev = [])
    (ho : out.filterMap Cluster.voteOf = []) : Casts config n ev n' out := by
  refine .of_quiet h (.of_eq hu.hardState hu.term hu.vote ?_) hv ho hu.elections
  rw [RaftNode.pendingWrites, RaftNode.pendingWrites, hu.committing, hu.writes]

omit [DecidableEq ν] in
theorem untouched_readCommitted (hs : n.readCommitted = some n') : Untouched n n' := by
  obtain ⟨htask, _, _, _, ⟨_, rfl⟩ | rfl⟩ := readCommitted_eq hs
  · exact ⟨rfl, rfl, rfl, rfl, rfl, rfl⟩
  · exact ⟨rfl, rfl, rfl, rfl, by rw [htask]; rfl, rfl⟩

/-- **What an event makes of the votes**, if it takes none away from the disk. -/
theorem step_casts [DecidableEq α] (h : BallotOk n) (hkeep : n.clearsVote ev = false)
    (hs : n.step config ev = some (n', out)) : Casts config n ev n' out := by
  cases ev with
  | beginElection =>
    obtain ⟨hn, rfl⟩ := eq_of_map_nil hs
    exact casts_beginElection h hn
  | readLastLogIndex k =>
    obtain ⟨hn, rfl⟩ := eq_of_map_nil hs
    exact casts_readLastLogIndex h hn
  | readLastLogTerm k => exact casts_readLastLogTerm h hs
  | recordVote k voter r =>
    obtain ⟨hn, rfl⟩ := eq_of_map_nil hs
    exact casts_recordVote h hn
  | becomeLeader k =>
    obtain ⟨hn, rfl⟩ := eq_of_map_nil hs
    exact casts_becomeLeader h hn
  | handleRequestVote r beforeDeadline =>
    obtain ⟨hn, rfl⟩ := eq_of_map_nil hs
    exact casts_handleRequestVote h hn
  | answerRequestVote k => exact casts_answerRequestVote h hs
  | stepDown term leaderId =>
    obtain ⟨hn, rfl⟩ := eq_of_map_nil hs
    exact casts_stepDown h hn
  | propose requests =>
    obtain ⟨hn, rfl⟩ := eq_of_map_nil hs
    obtain ⟨_, rfl⟩ := propose_eq hn
    exact Untouched.casts ⟨rfl, rfl, rfl, rfl, rfl, rfl⟩ h rfl rfl
  | proposeNoop =>
    obtain ⟨hn, rfl⟩ := eq_of_map_nil hs
    obtain ⟨_, rfl⟩ := propose_eq hn
    exact Untouched.casts ⟨rfl, rfl, rfl, rfl, rfl, rfl⟩ h rfl rfl
  | changeMembership newPeers =>
    obtain ⟨hn, rfl⟩ := eq_of_map_nil hs
    obtain ⟨_, _, _, rfl⟩ := changeMembership_eq hn
    exact Untouched.casts ⟨rfl, rfl, rfl, rfl, rfl, rfl⟩ h rfl rfl
  | appendProposal k =>
    obtain ⟨hn, rfl⟩ := eq_of_map_nil hs
    obtain ⟨_, _, _, _, rfl⟩ := appendProposal_eq hn
    exact Untouched.casts ⟨rfl, rfl, rfl, rfl, rfl, rfl⟩ h rfl rfl
  | replicate peer maxEntries leaderCommit =>
    obtain ⟨_, _, rfl, rfl⟩ := replicate_eq hs
    exact Untouched.casts ⟨rfl, rfl, rfl, rfl, rfl, rfl⟩ h rfl rfl
  | handleAppended r =>
    obtain ⟨hn, rfl⟩ := eq_of_map_nil hs
    obtain ⟨_, rfl⟩ := handleAppended_eq hn
    exact Untouched.casts ⟨rfl, rfl, rfl, rfl, rfl, rfl⟩ h rfl rfl
  | commitLeaderIndex index ofChange =>
    obtain ⟨hn, rfl⟩ := eq_of_map_nil hs
    exact casts_commitLeaderIndex h hn
  | writeCommit k =>
    obtain ⟨hn, rfl⟩ := eq_of_map_nil hs
    exact casts_writeCommit h hn
  | syncCommit =>
    cases hs
    exact Untouched.casts ⟨rfl, rfl, rfl, rfl, rfl, rfl⟩ h rfl rfl
  | prepareAppendEntries r =>
    obtain ⟨hn, rfl⟩ := eq_of_map_nil hs
    exact casts_prepareAppendEntries h hn
  | checkPrevious k =>
    obtain ⟨hn, rfl⟩ := eq_of_map_nil hs
    obtain ⟨_, rfl⟩ := checkPrevious_eq hn
    exact Untouched.casts ⟨rfl, rfl, rfl, rfl, rfl, rfl⟩ h rfl rfl
  | appendFromLeader k =>
    obtain ⟨hn, rfl⟩ := eq_of_map_nil hs
    obtain ⟨_, _, rfl⟩ := appendFromLeader_eq hn
    exact Untouched.casts ⟨rfl, rfl, rfl, rfl, rfl, rfl⟩ h rfl rfl
  | finishAppendEntries k => exact casts_finishAppendEntries h hs
  | sendSnapshot peer =>
    obtain ⟨_, rfl, rfl⟩ := sendSnapshot_eq hs
    exact Untouched.casts ⟨rfl, rfl, rfl, rfl, rfl, rfl⟩ h rfl rfl
  | handleInstalled r =>
    obtain ⟨hn, rfl⟩ := eq_of_map_nil hs
    obtain ⟨_, rfl⟩ := handleInstalled_eq hn
    exact Untouched.casts ⟨rfl, rfl, rfl, rfl, rfl, rfl⟩ h rfl rfl
  | acceptSnapshot r =>
    obtain ⟨hn, rfl⟩ := eq_of_map_nil hs
    exact casts_acceptSnapshot h hn
  | examineSnapshot k =>
    obtain ⟨hn, rfl⟩ := eq_of_map_nil hs
    obtain ⟨_, rfl⟩ := examineSnapshot_eq hn
    exact Untouched.casts ⟨rfl, rfl, rfl, rfl, rfl, rfl⟩ h rfl rfl
  | ensureSnapshotSender k =>
    obtain ⟨hn, rfl⟩ := eq_of_map_nil hs
    obtain ⟨_, rfl⟩ := ensureSnapshotSender_eq hn
    exact Untouched.casts ⟨rfl, rfl, rfl, rfl, rfl, rfl⟩ h rfl rfl
  | storeSnapshot k =>
    obtain ⟨hn, rfl⟩ := eq_of_map_nil hs
    obtain ⟨_, _, _, rfl⟩ := storeSnapshot_eq hn
    exact Untouched.casts ⟨rfl, rfl, rfl, rfl, rfl, rfl⟩ h rfl rfl
  | finishSnapshot k => exact casts_finishSnapshot h hs
  | applyVisibleSnapshot =>
    obtain ⟨hn, rfl⟩ := eq_of_map_nil hs
    exact casts_applyVisibleSnapshot h hn
  | takeSnapshot =>
    obtain ⟨hn, rfl⟩ := eq_of_map_nil hs
    obtain ⟨_, _, rfl⟩ := takeSnapshot_eq hn
    exact Untouched.casts ⟨rfl, rfl, rfl, rfl, rfl, rfl⟩ h rfl rfl
  | compact throughIndex =>
    obtain ⟨hn, rfl⟩ := eq_of_map_nil hs
    obtain ⟨_, rfl⟩ := compact_eq hn
    exact Untouched.casts ⟨rfl, rfl, rfl, rfl, rfl, rfl⟩ h rfl rfl
  | readCommitted =>
    obtain ⟨hn, rfl⟩ := eq_of_map_nil hs
    exact (untouched_readCommitted hn).casts h rfl rfl
  | applyNext =>
    obtain ⟨hn, rfl⟩ := eq_of_map_nil hs
    exact casts_applyNext h hkeep hn
  | restart =>
    obtain ⟨hn, rfl⟩ := eq_of_map_nil hs
    exact casts_restart hn
  | clearRemovedVote =>
    obtain ⟨hn, rfl⟩ := eq_of_map_nil hs
    exact casts_clearRemovedVote h hkeep hn
  | touchResponses ev =>
    cases hs
    exact .of_quiet h (.of_eq rfl rfl rfl rfl) rfl rfl rfl

end LiveMutex.Raft
