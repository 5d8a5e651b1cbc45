/-
How a leader finds out where a follower's log parts from its own.

A round sends a probe at `nextIndex`; the follower answers with a report; on a
conflict the leader moves `nextIndex` by three rules that limit each other (the
snapshot fallback, the conflict hint, the clamp to what is known to match). The
loop ends when the previous entry of a probe is accepted, or when the leader has
to send its snapshot.

It does not always end. The fallback moves a lagging follower to the leader's
snapshot index `n`, to make the next probe miss the retained log; but if entry
`n - 1` is still retained the probe is an ordinary one, is refused with the same
hint, and falls back to `n` again. `repair_converges` says exactly when it does end.
-/
import LiveMutex.Raft.Store

namespace LiveMutex.Raft

variable {α : Type}

namespace RaftLogState

/-! ## The leader's side of a round -/

/-- The entries of a batch; at least one is taken whatever the limit is, and the
limits on bytes only shorten the batch further. -/
def entriesFromLimited (s : RaftLogState α) (nextIndex maxEntries : Nat) : List (RaftLogEntry α) :=
  (s.retainedLogEntries.drop (retainedEntryLowerBound s.retainedLogEntries nextIndex)).take (max maxEntries 1)

/-- The previous term of a probe and its entries
(`prev_term_entries_and_bytes_limited_cached_with_budgets`). -/
def prevTermEntriesLimited (s : RaftLogState α) (nextIndex maxEntries : Nat) :
    Option (Nat × List (RaftLogEntry α)) :=
  let nextIndex := max nextIndex 1
  let prevLogIndex := nextIndex - 1
  if prevLogIndex = s.lastIndex then some (s.lastTerm, [])
  else (s.termAtIndex prevLogIndex).map (·, s.entriesFromLimited nextIndex maxEntries)

/-- The lowest index the leader can count on having retained. -/
def retainedReplicationFloorNextIndex (s : RaftLogState α) : Nat :=
  (s.latestSnapshot.map (·.lastIncludedIndex + 1)).getD 1

/-- Why a conflict hint cannot be right (`invalid_append_conflict_hint_reason`). -/
def invalidAppendConflictHintReason (conflictTerm conflictIndex : Option Nat)
    (matchIndex prevLogIndex currentNextIndex responseTerm : Nat) : Option String :=
  if conflictTerm = some 0 then some "conflictTerm must be >= 1 when present"
  else if conflictTerm.any (responseTerm < ·) then some "conflictTerm cannot exceed response term"
  else if conflictTerm.isSome ∧ conflictIndex.isNone then
    some "conflictIndex is required when conflictTerm is present"
  else if conflictIndex = some 0 then some "conflictIndex must be >= 1 when present"
  else if currentNextIndex ≤ matchIndex then some "matchIndex must be below rejected nextIndex"
  else if 0 < prevLogIndex ∧ prevLogIndex ≤ matchIndex then
    some "matchIndex must be below rejected prevLogIndex"
  else if conflictTerm.isSome ∧ conflictIndex.any (currentNextIndex ≤ ·) then
    some "conflictIndex must be below rejected nextIndex"
  else none

def snapshotFallbackNextIndexAfterConflict (s : RaftLogState α) (conflictTerm conflictIndex : Option Nat) :
    Option Nat :=
  let retainedFloor := max s.retainedReplicationFloorNextIndex 1
  if retainedFloor ≤ 1 ∨ conflictIndex.all (retainedFloor ≤ ·) then none
  else if (conflictTerm.bind s.lastIndexForTerm).isSome then none
  else some (max (retainedFloor - 1) 1)

def nextIndexAfterConflict (s : RaftLogState α) (conflictTerm conflictIndex : Option Nat)
    (currentNextIndex : Nat) : Nat :=
  let retainedFloor := max s.retainedReplicationFloorNextIndex 1
  let localTailNextIndex := max (s.lastIndex + 1) 1
  let compactedPrefixHint := conflictTerm.isNone && conflictIndex.any (currentNextIndex ≤ ·)
  let repairCeiling :=
    if compactedPrefixHint then localTailNextIndex
    else min (max (currentNextIndex - 1) retainedFloor) localTailNextIndex
  let hinted := conflictIndex.getD (currentNextIndex - 1)
  let repaired := ((conflictTerm.bind s.lastIndexForTerm).map (· + 1)).getD hinted
  min (max repaired retainedFloor) repairCeiling

/-- The leader's answer to a refused probe at `p`. -/
def progressAfterConflict (s : RaftLogState α) (responseTerm : Nat) (p : RaftPeerProgress)
    (r : RaftAppendReport) : RaftPeerProgress :=
  if r.conflictIndex = none ∧ r.conflictTerm = none then p
  else if (invalidAppendConflictHintReason r.conflictTerm r.conflictIndex r.matchIndex (p.nextIndex - 1)
      p.nextIndex responseTerm).isSome then p
  else
    let repairedNextIndex := (s.snapshotFallbackNextIndexAfterConflict r.conflictTerm r.conflictIndex).getD
      (s.nextIndexAfterConflict r.conflictTerm r.conflictIndex p.nextIndex)
    { p with nextIndex := max repairedNextIndex (max (p.matchIndex + 1) 1) }

/-- The progress a batch starts from: a match behind the leader's own end is
forgotten, and `nextIndex` is brought between the match and the end. -/
def startProgress (s : RaftLogState α) (p : RaftPeerProgress) : RaftPeerProgress :=
  let maxNextIndex := max (s.lastIndex + 1) 1
  let p := if s.lastIndex < p.matchIndex then ⟨maxNextIndex, 0⟩ else p
  { p with nextIndex := min (max p.nextIndex (max (p.matchIndex + 1) 1)) maxNextIndex }

/-! ## A round -/

/-- How a round ends. -/
inductive Round where
  /-- The follower has the previous entry. -/
  | accepted
  /-- The leader's log does not reach back to the probe, so the snapshot is sent. -/
  | installSnapshot
  /-- The follower refused, and the leader goes on from here. -/
  | refused (p : RaftPeerProgress)
  deriving Repr, DecidableEq

/-- One round of replication from leader `l` to follower `f` in `term`, both logs
as they are. -/
def round (l f : RaftLogState α) (term maxEntries : Nat) (p : RaftPeerProgress) : Round :=
  let p := l.startProgress p
  match l.prevTermEntriesLimited p.nextIndex maxEntries with
  | none => .installSnapshot
  | some (prevLogTerm, entries) =>
    if entries.head?.any (·.index != p.nextIndex) then .installSnapshot
    else
      match f.appendEntriesPrevConflict (p.nextIndex - 1) prevLogTerm with
      | none => .accepted
      | some r => .refused (l.progressAfterConflict term p r)

/-- The loop, for a number of rounds. -/
def repair (l f : RaftLogState α) (term maxEntries : Nat) : Nat → RaftPeerProgress → Round
  | 0, p => .refused p
  | k + 1, p =>
    match round l f term maxEntries p with
    | .refused p => repair l f term maxEntries k p
    | .accepted => .accepted
    | .installSnapshot => .installSnapshot

/-- The loop has found where the logs part, or given it up for a snapshot. -/
def Round.Settled : Round → Prop
  | .refused _ => False
  | _ => True

instance : DecidablePred Round.Settled := fun r => by
  cases r <;> simp only [Round.Settled] <;> infer_instance

variable {l f : RaftLogState α} {p : RaftPeerProgress} {commitIndex term maxEntries i k t : Nat}

/-! ## What Raft guarantees about the two logs -/

/-- Up to index `k`, the logs have the same term wherever both know one. -/
def Agree (l f : RaftLogState α) (k : Nat) : Prop :=
  ∀ i ≤ k, ∀ t t', l.termAtIndex i = some t → f.termAtIndex i = some t' → t = t'

/-- A leader's log and a follower's log, the follower with this commit index and
in this term. -/
structure Related (l f : RaftLogState α) (commitIndex term : Nat) : Prop where
  leader : l.Valid
  follower : f.Valid
  /-- Log matching: logs that have an entry in common have everything before it
  in common. -/
  matching : ∀ {i t}, l.termAtIndex i = some t → f.termAtIndex i = some t → Agree l f i
  /-- The follower's committed entries are the leader's as well. -/
  committed : Agree l f commitIndex
  complete : commitIndex ≤ l.lastIndex
  /-- A snapshot is taken of committed entries only. -/
  compacted : f.snapshotIndex ≤ commitIndex
  /-- A follower in `term` has no entry of a later one. -/
  current : ∀ {i t}, f.termAtIndex i = some t → t ≤ term

/-- The leader's view of the follower: what it believes to match does match, and
`nextIndex` lies behind it. -/
structure Truthful (l f : RaftLogState α) (p : RaftPeerProgress) : Prop where
  agree : Agree l f p.matchIndex
  reached : p.matchIndex ≤ f.lastIndex
  behind : p.matchIndex + 1 ≤ p.nextIndex
  inside : p.nextIndex ≤ l.lastIndex + 1

/-- The logs do not lock the snapshot fallback. With the leader's snapshot at
`n`: either the leader no longer knows entry `n - 1`, or the follower has it, or
the follower's own snapshot reaches `n`; and if the follower has another entry
than the leader at `n`, the leader has nothing of that entry's term. -/
def Repairable (l f : RaftLogState α) : Prop :=
  (l.termAtIndex (l.snapshotIndex - 1) = none ∨
    f.termAtIndex (l.snapshotIndex - 1) = l.termAtIndex (l.snapshotIndex - 1) ∨
    l.snapshotIndex ≤ f.snapshotIndex) ∧
  ∀ t, f.termAtIndex l.snapshotIndex = some t → l.termAtIndex l.snapshotIndex ≠ some t →
    l.lastIndexForTerm t = none

/-! ## One round, read off the logs -/

theorem floor_eq (s : RaftLogState α) : max s.retainedReplicationFloorNextIndex 1 = s.snapshotIndex + 1 := by
  unfold retainedReplicationFloorNextIndex snapshotIndex
  cases s.latestSnapshot <;> simp

theorem Truthful.startProgress (h : Truthful l f p) : l.startProgress p = p := by
  obtain ⟨next, matched⟩ := p
  have hb := h.behind
  have hi := h.inside
  simp only at hb hi
  have hm : ¬l.lastIndex < matched := by omega
  simp only [RaftLogState.startProgress, hm, if_false, RaftPeerProgress.mk.injEq, and_true]
  omega

/-- The previous term of a probe is the one the log knows at its previous index. -/
theorem Valid.prevTermEntriesLimited (h : l.Valid) (hn : 1 ≤ i) (maxEntries : Nat) :
    (l.prevTermEntriesLimited i maxEntries).map (·.1) = l.termAtIndex (i - 1) := by
  simp only [RaftLogState.prevTermEntriesLimited, Nat.max_eq_left hn]
  by_cases hlast : i - 1 = l.lastIndex
  · simp [hlast, h.termAtIndex_lastIndex]
  · simp [hlast, Function.comp_def]

theorem round_of_unknown (hl : l.Valid) (hp : Truthful l f p) (h : l.termAtIndex (p.nextIndex - 1) = none) :
    round l f term maxEntries p = .installSnapshot := by
  have hb := hp.behind
  have hprev := hl.prevTermEntriesLimited (show 1 ≤ p.nextIndex by omega) maxEntries
  rw [h, Option.map_eq_none_iff] at hprev
  simp [round, hp.startProgress, hprev]

/-- Behind a known index the next one is retained. -/
theorem Valid.retained_behind (h : l.Valid) (hi : i ≠ 0) (ht : l.termAtIndex i = some t) (hlt : i < l.lastIndex) :
    ∃ e ∈ l.retainedLogEntries, e.index = i + 1 := by
  by_cases hlo : l.snapshotIndex ≤ i
  · exact h.retained (by omega) hlt
  · rcases (h.termAtIndex_eq_some hi).1 ht with ⟨a, ha, rfl, _⟩ | ⟨m, hm, rfl, _⟩
    · obtain ⟨b, hb⟩ : ∃ b, l.retainedLogEntries.getLast? = some b :=
        ⟨_, List.getLast?_eq_some_getLast (List.ne_nil_of_mem ha)⟩
      rw [lastIndex_of_getLast hb] at hlt
      exact h.between ha (List.mem_of_getLast? hb) (by omega) hlt
    · simp [snapshotIndex, Option.mem_def.1 hm] at hlo

/-- The entries of a probe follow on its previous one, unless that is the empty log's. -/
theorem Valid.entries_follow (h : l.Valid) (hi : 2 ≤ i) {t : Nat} {entries : List (RaftLogEntry α)}
    (hprev : l.prevTermEntriesLimited i maxEntries = some (t, entries)) :
    entries.head?.any (·.index != i) = false := by
  simp only [RaftLogState.prevTermEntriesLimited, show max i 1 = i by omega] at hprev
  split at hprev
  · cases hprev
    rfl
  · rename_i hlast
    obtain ⟨t, ht, heq⟩ := Option.map_eq_some_iff.1 hprev
    obtain ⟨rfl, rfl⟩ := Prod.mk.inj heq
    have hle := h.le_lastIndex_of_known ht
    obtain ⟨e, he, hei⟩ := h.retained_behind (by omega) ht (by omega)
    obtain ⟨f, hf⟩ := h.contiguous_from
    have hat := hf.retainedEntryAt_eq_some.2 ⟨he, show e.index = i by omega⟩
    simp only [retainedEntryAt, Option.filter_eq_some_iff, beq_iff_eq] at hat
    rw [entriesFromLimited, List.head?_take, if_neg (by omega), List.head?_drop, hat.1]
    simp [hat.2]

/-- A probe with a known previous term ends as the follower reports, or with the
snapshot if the log does not reach back to its first entry. -/
theorem round_of_known (hl : l.Valid) (hp : Truthful l f p) (h : l.termAtIndex (p.nextIndex - 1) = some t)
    (term maxEntries : Nat) :
    (p.nextIndex = 1 ∧ round l f term maxEntries p = .installSnapshot) ∨ round l f term maxEntries p =
      match f.appendEntriesPrevConflict (p.nextIndex - 1) t with
      | none => .accepted
      | some r => .refused (l.progressAfterConflict term p r) := by
  have hb := hp.behind
  have hprev := hl.prevTermEntriesLimited (show 1 ≤ p.nextIndex by omega) maxEntries
  rw [h, Option.map_eq_some_iff] at hprev
  obtain ⟨⟨t', entries⟩, hprev, rfl⟩ := hprev
  simp only [round, hp.startProgress, hprev]
  by_cases hgap : entries.head?.any (·.index != p.nextIndex)
  · refine .inl ⟨?_, if_pos hgap⟩
    by_contra hone
    rw [hl.entries_follow (by omega) hprev] at hgap
    cases hgap
  · exact .inr (if_neg hgap)

theorem round_settled_of_accepted (hl : l.Valid) (hp : Truthful l f p)
    (h : l.termAtIndex (p.nextIndex - 1) = some t)
    (hf : f.appendEntriesPrevConflict (p.nextIndex - 1) t = none) : (round l f term maxEntries p).Settled := by
  rcases round_of_known hl hp h term maxEntries with ⟨-, hr⟩ | hr
  · rw [hr]; trivial
  · rw [hr, hf]; trivial

/-! ## Where a hint leads -/

/-- A hint that passes every check of the leader. -/
theorem hint_valid {conflictTerm : Option Nat} {ci m prev next : Nat} (hm : m < prev) (hprev : prev < next)
    (ht : ∀ t, conflictTerm = some t → 1 ≤ t ∧ t ≤ term ∧ ci < next) (hci : 1 ≤ ci) :
    invalidAppendConflictHintReason conflictTerm (some ci) m prev next term = none := by
  unfold invalidAppendConflictHintReason
  cases conflictTerm with
  | none =>
    simp only [Option.any_none, Option.isSome_none, Bool.false_eq_true, reduceCtorEq, if_false, false_and,
      Option.some.injEq]
    rw [if_neg (by omega), if_neg (by omega), if_neg (by omega)]
  | some t =>
    obtain ⟨h1, h2, h3⟩ := ht t rfl
    simp only [Option.any_some, Option.isSome_some, Option.isNone_some, Bool.false_eq_true, if_false, and_false,
      Option.some.injEq, decide_eq_true_eq, true_and]
    rw [if_neg (by omega), if_neg (by omega), if_neg (by omega), if_neg (by omega), if_neg (by omega),
      if_neg (by omega)]

/-- A hint without a term (the follower's log ends, or is compacted, before the
probe): the snapshot fallback if it lies under the leader's snapshot, else the
index of the hint. -/
theorem next_of_index_hint {h m : Nat} (hp : Truthful l f p) (hm : m < p.nextIndex - 1)
    (hle : p.matchIndex ≤ h) (hfit : h + 1 < p.nextIndex ∨ p.nextIndex ≤ h + 1 ∧ h ≤ l.lastIndex) :
    l.progressAfterConflict term p ⟨false, m, some (h + 1), none⟩ =
      { p with nextIndex := if h < l.snapshotIndex then l.snapshotIndex else h + 1 } := by
  have hb := hp.behind
  have hi := hp.inside
  have hvalid : invalidAppendConflictHintReason none (some (h + 1)) m (p.nextIndex - 1) p.nextIndex term = none :=
    hint_valid hm (by omega) (by simp) (by omega)
  simp only [progressAfterConflict, hvalid, Option.isSome_none, Bool.false_eq_true, if_false, reduceCtorEq,
    false_and, snapshotFallbackNextIndexAfterConflict, nextIndexAfterConflict, floor_eq, Option.bind_none]
  congr 1
  by_cases hfall : h < l.snapshotIndex
  · have hback : ¬(l.snapshotIndex + 1 ≤ 1 ∨ (some (h + 1)).all (fun i => decide (l.snapshotIndex + 1 ≤ i)) = true) := by
      rw [Option.all_some, decide_eq_true_iff]
      omega
    simp only [hback, if_false, Option.getD_some, hfall, if_true]
    omega
  · have hskip : l.snapshotIndex + 1 ≤ 1 ∨ (some (h + 1)).all (fun i => decide (l.snapshotIndex + 1 ≤ i)) = true := by
      right; simp; omega
    simp only [hskip, if_true, Option.getD_none, Option.map_none, Option.getD_some, hfall, if_false]
    rcases hfit with hlt | ⟨hge, hlast⟩
    · simp [show ¬p.nextIndex ≤ h + 1 by omega]
      omega
    · simp [hge]
      omega

/-- A hint with a term the leader does not have: under the leader's snapshot the
fallback, else the first index of that term at the follower. -/
theorem next_of_foreign_term {ci m : Nat} (hp : Truthful l f p) (hm : m < p.nextIndex - 1) (ht0 : 1 ≤ t)
    (ht : t ≤ term) (hci : 1 ≤ ci) (hprev : ci ≤ p.nextIndex - 1) (hnone : l.lastIndexForTerm t = none) :
    l.progressAfterConflict term p ⟨false, m, some ci, some t⟩ =
      { p with nextIndex := max (if ci ≤ l.snapshotIndex then l.snapshotIndex else ci) (p.matchIndex + 1) } := by
  have hb := hp.behind
  have hi := hp.inside
  have hvalid : invalidAppendConflictHintReason (some t) (some ci) m (p.nextIndex - 1) p.nextIndex term = none :=
    hint_valid hm (by omega) (fun _ h => Option.some.inj h ▸ ⟨ht0, ht, by omega⟩) hci
  simp only [progressAfterConflict, hvalid, Option.isSome_none, Bool.false_eq_true, if_false, reduceCtorEq,
    false_and, snapshotFallbackNextIndexAfterConflict, nextIndexAfterConflict, floor_eq, Option.bind_some, hnone]
  congr 1
  by_cases hfall : ci ≤ l.snapshotIndex
  · have hback : ¬(l.snapshotIndex + 1 ≤ 1 ∨ (some ci).all (fun i => decide (l.snapshotIndex + 1 ≤ i)) = true) := by
      rw [Option.all_some, decide_eq_true_iff]
      omega
    simp only [hback, if_false, Option.getD_some, hfall, if_true]
    omega
  · have hskip : l.snapshotIndex + 1 ≤ 1 ∨ (some ci).all (fun i => decide (l.snapshotIndex + 1 ≤ i)) = true := by
      right; simp; omega
    simp only [hskip, if_true, Option.getD_none, Option.map_none, Option.getD_some, hfall, if_false,
      Option.isNone_some, Bool.false_and, Bool.false_eq_true]
    omega

/-- A hint with a term the leader has: behind the last entry of that term, not below
the leader's snapshot, and above it at least one step back. -/
theorem next_of_known_term {ci m j : Nat} (hp : Truthful l f p) (hm : m < p.nextIndex - 1) (ht0 : 1 ≤ t)
    (ht : t ≤ term) (hci : 1 ≤ ci) (hprev : ci ≤ p.nextIndex - 1) (hsome : l.lastIndexForTerm t = some j) :
    l.progressAfterConflict term p ⟨false, m, some ci, some t⟩ =
      { p with nextIndex := max (min (max (j + 1) (l.snapshotIndex + 1))
          (min (max (p.nextIndex - 1) (l.snapshotIndex + 1)) (l.lastIndex + 1))) (p.matchIndex + 1) } := by
  have hb := hp.behind
  have hi := hp.inside
  have hvalid : invalidAppendConflictHintReason (some t) (some ci) m (p.nextIndex - 1) p.nextIndex term = none :=
    hint_valid hm (by omega) (fun _ h => Option.some.inj h ▸ ⟨ht0, ht, by omega⟩) hci
  simp [progressAfterConflict, hvalid, snapshotFallbackNextIndexAfterConflict, nextIndexAfterConflict, floor_eq, hsome]

/-! ## Every refusal makes headway -/

/-- A refused probe leads on to `p'`: further back, or to a probe that settles
the matter. -/
def Headway (l f : RaftLogState α) (term maxEntries : Nat) (p p' : RaftPeerProgress) : Prop :=
  Truthful l f p' ∧ (p'.nextIndex < p.nextIndex ∨ (round l f term maxEntries p').Settled)

/-- The belief about the match is not touched by a repair. -/
theorem Truthful.move {next : Nat} (hp : Truthful l f p) (hlo : p.matchIndex + 1 ≤ next)
    (hhi : next ≤ l.lastIndex + 1) : Truthful l f { p with nextIndex := next } :=
  ⟨hp.agree, hp.reached, hlo, hhi⟩

namespace Related

variable (h : Related l f commitIndex term)
include h

/-- The probe the snapshot fallback makes is never refused again. -/
theorem fallback_settles (hr : Repairable l f) (hp : Truthful l f p) (hnext : p.nextIndex = l.snapshotIndex)
    (hlow : f.snapshotIndex < l.snapshotIndex) : (round l f term maxEntries p).Settled := by
  cases hlt : l.termAtIndex (p.nextIndex - 1) with
  | none =>
    rw [round_of_unknown h.leader hp hlt]
    trivial
  | some t =>
    rcases hr.1 with hnone | heq | hle
    · rw [hnext, hnone] at hlt
      cases hlt
    · rw [← hnext, hlt] at heq
      have hreach := h.follower.le_lastIndex_of_known heq
      exact round_settled_of_accepted h.leader hp hlt ((prevConflict_known hreach heq).trans (if_pos rfl))
    · omega

/-- A probe right behind the follower's own snapshot is accepted. -/
theorem compacted_settles (hp : Truthful l f p) (hnext : p.nextIndex = f.snapshotIndex + 1)
    (hlow : l.snapshotIndex ≤ f.snapshotIndex) : (round l f term maxEntries p).Settled := by
  have hprev : p.nextIndex - 1 = f.snapshotIndex := by omega
  have hlast : f.snapshotIndex ≤ l.lastIndex := Nat.le_trans h.compacted h.complete
  obtain ⟨t, ht⟩ := h.leader.termAtIndex_known hlow hlast
  obtain ⟨t', ht'⟩ := h.follower.termAtIndex_known (Nat.le_refl _) h.follower.snapshotIndex_le_lastIndex
  have hsame : t = t' := h.committed _ h.compacted t t' ht ht'
  subst hsame
  rw [← hprev] at ht ht'
  have hreach := h.follower.le_lastIndex_of_known ht'
  exact round_settled_of_accepted h.leader hp ht ((prevConflict_known hreach ht').trans (if_pos rfl))

/-- The follower's log ends before the probe. -/
theorem headway_behind (hr : Repairable l f) (hp : Truthful l f p) (hlt : f.lastIndex < p.nextIndex - 1) :
    Headway l f term maxEntries p
      (l.progressAfterConflict term p ⟨false, f.lastIndex, some (f.lastIndex + 1), none⟩) := by
  have hi := hp.inside
  have hreached := hp.reached
  have hsnap := h.follower.snapshotIndex_le_lastIndex
  have hn := h.leader.snapshotIndex_le_lastIndex
  rw [next_of_index_hint hp hlt hp.reached (.inl (by omega))]
  by_cases hfall : f.lastIndex < l.snapshotIndex
  · rw [if_pos hfall]
    have hp' : Truthful l f { p with nextIndex := l.snapshotIndex } := hp.move (by omega) (by omega)
    exact ⟨hp', .inr (h.fallback_settles hr hp' rfl (by omega))⟩
  · rw [if_neg hfall]
    exact ⟨hp.move (by omega) (by omega), .inl (show f.lastIndex + 1 < p.nextIndex by omega)⟩

/-- The follower has compacted the probed entry away. -/
theorem headway_compacted (hr : Repairable l f) (hp : Truthful l f p) {m : Nat} (hm : m < p.nextIndex - 1)
    (hlt : p.nextIndex - 1 < f.snapshotIndex) :
    Headway l f term maxEntries p
      (l.progressAfterConflict term p ⟨false, m, some (f.snapshotIndex + 1), none⟩) := by
  have hb := hp.behind
  have hi := hp.inside
  have hn := h.leader.snapshotIndex_le_lastIndex
  have hlast : f.snapshotIndex ≤ l.lastIndex := Nat.le_trans h.compacted h.complete
  rw [next_of_index_hint hp hm (by omega) (.inr ⟨by omega, hlast⟩)]
  by_cases hfall : f.snapshotIndex < l.snapshotIndex
  · rw [if_pos hfall]
    have hp' : Truthful l f { p with nextIndex := l.snapshotIndex } := hp.move (by omega) (by omega)
    exact ⟨hp', .inr (h.fallback_settles hr hp' rfl hfall)⟩
  · rw [if_neg hfall]
    have hp' : Truthful l f { p with nextIndex := f.snapshotIndex + 1 } := hp.move (by omega) (by omega)
    exact ⟨hp', .inr (h.compacted_settles hp' rfl (by omega))⟩

/-- Where both logs know different terms, the follower's entry is retained, is not
committed, and lies behind what is believed to match. -/
theorem mismatch (hp : Truthful l f p) {i t pt : Nat} (hl : l.termAtIndex i = some pt)
    (hf : f.termAtIndex i = some t) (hne : t ≠ pt) :
    i ≠ 0 ∧ commitIndex < i ∧ p.matchIndex < i ∧ ∃ e ∈ f.retainedLogEntries, e.index = i ∧ e.term = t := by
  have h0 : i ≠ 0 := by
    intro h0
    subst h0
    simp only [termAtIndex, if_true, Option.some.injEq] at hl hf
    omega
  have hcommit : commitIndex < i := by
    by_contra hle
    exact hne (h.committed i (by omega) pt t hl hf).symm
  have hmatch : p.matchIndex < i := by
    by_contra hle
    exact hne (hp.agree i (by omega) pt t hl hf).symm
  refine ⟨h0, hcommit, hmatch, ?_⟩
  rcases (h.follower.termAtIndex_eq_some h0).1 hf with hret | ⟨m, hm, hmi, _⟩
  · exact hret
  · have hsnap := h.compacted
    simp only [snapshotIndex, Option.mem_def.1 hm, Option.map_some, Option.getD_some] at hsnap
    omega

/-- Between the first and a later entry of a term, the follower has that term. -/
theorem term_between {a e : RaftLogEntry α} (ha : a ∈ f.retainedLogEntries) (he : e ∈ f.retainedLogEntries)
    (hae : a.term = e.term) (hai : a.index ≤ i) (hie : i ≤ e.index) : f.termAtIndex i = some e.term := by
  have hpos := (h.follower.positive a ha).1
  obtain ⟨b, hb, rfl⟩ := h.follower.between ha he hai hie
  have h1 := h.follower.term_le ha hb hai
  have h2 := h.follower.term_le hb he hie
  exact (h.follower.termAtIndex_eq_some (by omega)).2 (.inl ⟨b, hb, rfl, by omega⟩)

/-- A refused term at the leader's snapshot index or below it would be one the
leader does not have. -/
theorem above_snapshot (hr : Repairable l f) (hp : Truthful l f p) {i t pt j : Nat} (hl : l.termAtIndex i = some pt)
    (hf : f.termAtIndex i = some t) (hne : t ≠ pt) (hj : l.lastIndexForTerm t = some j) : l.snapshotIndex < i := by
  obtain ⟨h0, hcommit, _, _⟩ := h.mismatch hp hl hf hne
  have hcompacted := h.compacted
  have hn := h.leader.snapshotIndex_le_lastIndex
  by_contra hle
  by_cases heq : i = l.snapshotIndex
  · subst heq
    rw [hr.2 t hf (by rw [hl]; simpa using Ne.symm hne)] at hj
    cases hj
  · -- the probe lies below the snapshot, so entry `n - 1` is still retained
    obtain ⟨u, hu⟩ := h.leader.termAtIndex_known_from (j := l.snapshotIndex - 1) h0 hl (by omega) (by omega)
    rcases hr.1 with hnone | hsame | hsnap
    · rw [hnone] at hu
      cases hu
    · rw [hu] at hsame
      exact hne (h.matching hu hsame i (by omega) pt t hl hf).symm
    · omega

/-- The follower has another entry at the probe. -/
theorem headway_mismatch (hr : Repairable l f) (hp : Truthful l f p) {t pt : Nat}
    (hl : l.termAtIndex (p.nextIndex - 1) = some pt) (hf : f.termAtIndex (p.nextIndex - 1) = some t) (hne : t ≠ pt) :
    Headway l f term maxEntries p (l.progressAfterConflict term p
      ⟨false, min f.lastIndex (p.nextIndex - 1 - 1), f.firstIndexForTerm t, some t⟩) := by
  have hi := hp.inside
  have hn := h.leader.snapshotIndex_le_lastIndex
  obtain ⟨h0, hcommit, hmatch, e, he, hei, rfl⟩ := h.mismatch hp hl hf hne
  obtain ⟨a, ha, hat, hae, hfirst⟩ := h.follower.firstIndexForTerm_of_mem he
  have ha1 := (h.follower.positive a ha).1
  have he1 := (h.follower.positive e he).2
  have hterm := h.current hf
  rw [hfirst]
  cases hj : l.lastIndexForTerm e.term with
  | some j =>
    have habove := h.above_snapshot hr hp hl hf hne hj
    rw [next_of_known_term hp (by omega) he1 hterm ha1 (by omega) hj]
    refine ⟨hp.move (by omega) (by omega), .inl ?_⟩
    dsimp only
    omega
  | none =>
    rw [next_of_foreign_term hp (by omega) he1 hterm ha1 (by omega) hj]
    by_cases hfall : a.index ≤ l.snapshotIndex
    · -- from the snapshot on, an index both share would give the leader this term
      have hshared : ∀ k, l.snapshotIndex ≤ k → k < p.nextIndex - 1 → Agree l f k → False := by
        intro k hlo hhi hagree
        have hk := h.term_between ha he hat (i := k) (by omega) (by omega)
        obtain ⟨u, hu⟩ := h.leader.termAtIndex_known hlo (by omega)
        have hsame := hagree k (Nat.le_refl _) u e.term hu hk
        subst hsame
        obtain ⟨j, hj'⟩ := h.leader.lastIndexForTerm_of_known (by omega) hu
        rw [hj] at hj'
        cases hj'
      have hmn : p.matchIndex < l.snapshotIndex := by
        by_contra hle
        exact hshared p.matchIndex (by omega) hmatch hp.agree
      have hcompacted := h.compacted
      have hsn : f.snapshotIndex < l.snapshotIndex := by
        by_contra hle
        exact hshared f.snapshotIndex (by omega) (by omega) fun i hi => h.committed i (by omega)
      rw [if_pos hfall, show max l.snapshotIndex (p.matchIndex + 1) = l.snapshotIndex by omega]
      have hp' : Truthful l f { p with nextIndex := l.snapshotIndex } := hp.move (by omega) (by omega)
      exact ⟨hp', .inr (h.fallback_settles hr hp' rfl hsn)⟩
    · rw [if_neg hfall]
      exact ⟨hp.move (by omega) (by omega), .inl (show max a.index (p.matchIndex + 1) < p.nextIndex by omega)⟩

/-- A round settles the matter or makes headway. -/
theorem round_headway (hr : Repairable l f) (hp : Truthful l f p) (maxEntries : Nat) :
    (round l f term maxEntries p).Settled ∨
      ∃ p', round l f term maxEntries p = .refused p' ∧ Headway l f term maxEntries p p' := by
  cases hl : l.termAtIndex (p.nextIndex - 1) with
  | none =>
    rw [round_of_unknown h.leader hp hl]
    exact .inl trivial
  | some pt =>
    rcases round_of_known h.leader hp hl term maxEntries with ⟨-, hround⟩ | hround
    · rw [hround]
      exact .inl trivial
    · rw [hround]
      by_cases hbehind : f.lastIndex < p.nextIndex - 1
      · rw [prevConflict_behind hbehind]
        exact .inr ⟨_, rfl, h.headway_behind hr hp hbehind⟩
      · cases hf : f.termAtIndex (p.nextIndex - 1) with
        | none =>
          rw [prevConflict_unknown (by omega) hf]
          have hcompacted := h.follower.lt_snapshotIndex_of_unknown hf (by omega)
          have h0 : p.nextIndex - 1 ≠ 0 := by
            intro h0
            simp [h0, termAtIndex] at hf
          exact .inr ⟨_, rfl, h.headway_compacted hr hp (by omega) hcompacted⟩
        | some t =>
          rw [prevConflict_known (by omega) hf]
          by_cases hsame : t = pt
          · rw [if_pos hsame]
            exact .inl trivial
          · rw [if_neg hsame]
            exact .inr ⟨_, rfl, h.headway_mismatch hr hp hl hf hsame⟩

/-- A probe at the leader's snapshot or before it, for an entry the follower does not
have, leads to the snapshot or right behind it; behind it if the leader has the term
that the follower has there. -/
theorem refused_low (hp : Truthful l f p) (hlo : 2 ≤ p.nextIndex) (hhi : p.nextIndex ≤ l.snapshotIndex + 1)
    {pt : Nat} (hl : l.termAtIndex (p.nextIndex - 1) = some pt) (hf : f.termAtIndex (p.nextIndex - 1) ≠ some pt)
    (hsnap : f.snapshotIndex < p.nextIndex) (maxEntries : Nat) :
    ∃ next, round l f term maxEntries p = .refused { p with nextIndex := next } ∧
      (next = l.snapshotIndex ∨ next = l.snapshotIndex + 1) ∧
      ∀ t j, f.termAtIndex (p.nextIndex - 1) = some t → l.lastIndexForTerm t = some j →
        next = l.snapshotIndex + 1 := by
  have hb := hp.behind
  have hn := h.leader.snapshotIndex_le_lastIndex
  have hround := (round_of_known h.leader hp hl term maxEntries).resolve_left fun hone => by omega
  rw [hround]
  by_cases hbehind : f.lastIndex < p.nextIndex - 1
  · rw [prevConflict_behind hbehind]
    dsimp only
    rw [next_of_index_hint hp hbehind hp.reached (.inl (by omega)), if_pos (by omega)]
    refine ⟨_, rfl, .inl rfl, fun t j ht _ => ?_⟩
    have := h.follower.le_lastIndex_of_known ht
    omega
  · obtain ⟨t, ht⟩ := h.follower.termAtIndex_known (i := p.nextIndex - 1) (by omega) (by omega)
    have hne : t ≠ pt := fun heq => hf (heq ▸ ht)
    rw [prevConflict_known (by omega) ht, if_neg hne]
    obtain ⟨h0, -, hmatch, e, he, hei, rfl⟩ := h.mismatch hp hl ht hne
    obtain ⟨a, ha, -, hae, hfirst⟩ := h.follower.firstIndexForTerm_of_mem he
    have ha1 := (h.follower.positive a ha).1
    have he1 := (h.follower.positive e he).2
    have hterm := h.current ht
    dsimp only
    rw [hfirst]
    cases hj : l.lastIndexForTerm e.term with
    | some j =>
      rw [next_of_known_term hp (by omega) he1 hterm ha1 (by omega) hj]
      refine ⟨_, rfl, .inr ?_, fun _ _ _ _ => ?_⟩ <;> omega
    | none =>
      rw [next_of_foreign_term hp (by omega) he1 hterm ha1 (by omega) hj, if_pos (by omega)]
      refine ⟨_, rfl, .inl (by omega), fun t' j ht' hj' => ?_⟩
      rw [← Option.some.inj (ht.symm.trans ht'), hj] at hj'
      cases hj'

end Related

/-! ## Convergence -/

theorem repair_of_settled (h : (round l f term maxEntries p).Settled) :
    (repair l f term maxEntries 1 p).Settled := by
  simp only [repair]
  cases hround : round l f term maxEntries p with
  | refused p' =>
    rw [hround] at h
    exact h.elim
  | accepted => trivial
  | installSnapshot => trivial

theorem repair_of_refused {p' : RaftPeerProgress} (h : round l f term maxEntries p = .refused p') :
    repair l f term maxEntries (k + 1) p = repair l f term maxEntries k p' := by
  simp [repair, h]

/-- A set of starts that every round leads back into is one the loop never leaves. -/
theorem repair_never {S : Nat → Prop} {m : Nat}
    (hS : ∀ next, S next → ∃ next', round l f term maxEntries ⟨next, m⟩ = .refused ⟨next', m⟩ ∧ S next') :
    ∀ (k : Nat) {next : Nat}, S next → ¬(repair l f term maxEntries k ⟨next, m⟩).Settled
  | 0, _, _ => id
  | k + 1, next, hnext => by
    obtain ⟨next', hround, hnext'⟩ := hS next hnext
    rw [repair_of_refused hround]
    exact repair_never hS k hnext'

theorem Related.settles (h : Related l f commitIndex term) (hr : Repairable l f) (maxEntries : Nat)
    (hp : Truthful l f p) : ∃ k, (repair l f term maxEntries k p).Settled := by
  -- the distance to the start of the log shrinks with every refusal but the last
  induction hd : p.nextIndex using Nat.strongRecOn generalizing p with
  | ind d ih =>
    subst hd
    rcases h.round_headway hr hp maxEntries with hsettled | ⟨p', hround, hp', hlt | hsettled⟩
    · exact ⟨1, repair_of_settled hsettled⟩
    · obtain ⟨k, hk⟩ := ih p'.nextIndex hlt hp' rfl
      exact ⟨k + 1, by rw [repair_of_refused hround]; exact hk⟩
    · exact ⟨2, by rw [repair_of_refused hround]; exact repair_of_settled hsettled⟩

/-- The loop has a start from which it never ends. -/
def Diverges (l f : RaftLogState α) (term maxEntries m : Nat) : Prop :=
  ∃ next, Truthful l f ⟨next, m⟩ ∧ ∀ k, ¬(repair l f term maxEntries k ⟨next, m⟩).Settled

/-- The follower conflicts at the snapshot itself, and the leader has that term: the
probe right behind the snapshot is repeated for ever. -/
theorem Related.diverges_behind (h : Related l f commitIndex term) (maxEntries : Nat) {m j : Nat}
    (hagree : Agree l f m) (hreached : m ≤ f.lastIndex) (hf : f.termAtIndex l.snapshotIndex = some t)
    (hne : l.termAtIndex l.snapshotIndex ≠ some t) (hj : l.lastIndexForTerm t = some j) :
    Diverges l f term maxEntries m := by
  have hn := h.leader.snapshotIndex_le_lastIndex
  obtain ⟨pn, hpn⟩ := h.leader.termAtIndex_known (Nat.le_refl _) hn
  have hlt : m < l.snapshotIndex := by
    by_contra hle
    exact hne (hpn.trans (congrArg some (hagree _ (by omega) pn t hpn hf)))
  have hp : Truthful l f ⟨l.snapshotIndex + 1, m⟩ := ⟨hagree, hreached, by dsimp only; omega, by dsimp only; omega⟩
  have hcommit := (h.mismatch hp hpn hf fun heq => hne (heq ▸ hpn)).2.1
  have hcompacted := h.compacted
  refine ⟨_, hp, fun k => repair_never (S := (· = l.snapshotIndex + 1)) (fun next hnext => ?_) k rfl⟩
  subst hnext
  obtain ⟨next, hround, -, hstay⟩ := h.refused_low hp (by dsimp only; omega) (Nat.le_refl _) hpn
    (fun heq => hne (hpn.trans (heq.symm.trans hf))) (by dsimp only; omega) maxEntries
  exact ⟨next, hround, hstay t j hf hj⟩

/-- Entry `n - 1` is there to probe with, and the follower does not have it: the
probes at the snapshot and right behind it lead to each other. -/
theorem Related.diverges_at (h : Related l f commitIndex term) (maxEntries : Nat) {m pt : Nat}
    (hagree : Agree l f m) (hreached : m ≤ f.lastIndex) (hpt : l.termAtIndex (l.snapshotIndex - 1) = some pt)
    (hdiff : f.termAtIndex (l.snapshotIndex - 1) ≠ some pt) (hsnap : f.snapshotIndex < l.snapshotIndex) :
    Diverges l f term maxEntries m := by
  have hn := h.leader.snapshotIndex_le_lastIndex
  obtain ⟨pn, hpn⟩ := h.leader.termAtIndex_known (Nat.le_refl _) hn
  have htwo : 2 ≤ l.snapshotIndex := by
    by_contra hlt
    rw [show l.snapshotIndex - 1 = 0 by omega] at hpt hdiff
    exact hdiff hpt
  have hbelow : ∀ i, l.snapshotIndex - 1 ≤ i → i ≤ f.lastIndex → ¬Agree l f i := by
    intro i hlo hhi hag
    obtain ⟨t, ht⟩ := h.follower.termAtIndex_known (i := l.snapshotIndex - 1) (by omega) (by omega)
    exact hdiff (hag _ hlo pt t hpt ht ▸ ht)
  have hlt : m < l.snapshotIndex - 1 := by
    by_contra hle
    exact hbelow m (by omega) hreached hagree
  have hat : f.termAtIndex l.snapshotIndex ≠ some pn := fun hf =>
    hbelow _ (by omega) (h.follower.le_lastIndex_of_known hf) (h.matching hpn hf)
  have hp : ∀ next, next = l.snapshotIndex ∨ next = l.snapshotIndex + 1 → Truthful l f ⟨next, m⟩ := fun next hnext =>
    ⟨hagree, hreached, by dsimp only; omega, by dsimp only; omega⟩
  refine ⟨_, hp _ (.inl rfl), fun k => repair_never
    (S := fun next => next = l.snapshotIndex ∨ next = l.snapshotIndex + 1) (fun next hnext => ?_) k (.inl rfl)⟩
  rcases hnext with rfl | rfl
  · obtain ⟨next', hround, hnext', -⟩ := h.refused_low (hp _ (.inl rfl)) htwo (by dsimp only; omega) hpt hdiff
      (by dsimp only; omega) maxEntries
    exact ⟨next', hround, hnext'⟩
  · obtain ⟨next', hround, hnext', -⟩ := h.refused_low (hp _ (.inr rfl)) (by dsimp only; omega) (Nat.le_refl _) hpn hat
      (by dsimp only; omega) maxEntries
    exact ⟨next', hround, hnext'⟩

/-- **The repair of a follower's log converges** exactly where the logs do not lock
the snapshot fallback: whatever the logs, from every start between the match and the
leader's end a probe is accepted or the snapshot is sent after finitely many rounds,
if and only if they are repairable. -/
theorem repair_converges (h : Related l f commitIndex term) (maxEntries : Nat) {m : Nat} (hagree : Agree l f m)
    (hreached : m ≤ f.lastIndex) :
    (∀ next, Truthful l f ⟨next, m⟩ → ∃ k, (repair l f term maxEntries k ⟨next, m⟩).Settled) ↔ Repairable l f := by
  constructor
  · intro hall
    have hnever : ¬Diverges l f term maxEntries m := fun ⟨next, hp, hno⟩ =>
      let ⟨k, hk⟩ := hall next hp
      hno k hk
    constructor
    · by_contra hno
      simp only [not_or] at hno
      obtain ⟨pt, hpt⟩ := Option.ne_none_iff_exists'.1 hno.1
      exact hnever (h.diverges_at maxEntries hagree hreached hpt (hpt ▸ hno.2.1) (Nat.lt_of_not_le hno.2.2))
    · intro t hf hne
      by_contra hj
      obtain ⟨j, hj⟩ := Option.ne_none_iff_exists'.1 hj
      exact hnever (h.diverges_behind maxEntries hagree hreached hf hne hj)
  · intro hr next hp
    exact h.settles hr maxEntries hp

/-- A leader that compacted entries 1 and 2 into its snapshot and trimmed them. -/
def trimmedLeader : RaftLogState Unit where
  latestSnapshot := some ⟨2, 1⟩
  retainedLogEntries := [⟨3, 1, ()⟩]

/-- The same leader when the two entries are still retained. -/
def trailingLeader : RaftLogState Unit where
  latestSnapshot := some ⟨2, 1⟩
  retainedLogEntries := [⟨1, 1, ()⟩, ⟨2, 1, ()⟩, ⟨3, 1, ()⟩]

theorem termAtIndex_empty {i t : Nat} : ({} : RaftLogState Unit).termAtIndex i = some t → i = 0 ∧ t = 0 := by
  by_cases h0 : i = 0
  · simp [termAtIndex, h0, eq_comm]
  · simp [termAtIndex, termByIndex, retainedEntryAt, snapshotTermAt, h0]

/-- An empty log is related to any other. -/
theorem related_empty {l : RaftLogState Unit} (hl : l.Valid) : Related l {} 0 1 where
  leader := hl
  follower := ⟨by simp, by simp, by simp, by simp [Boundary], by simp⟩
  matching hlt hft := by
    obtain ⟨rfl, rfl⟩ := termAtIndex_empty hft
    intro i hi t t' ht ht'
    obtain ⟨rfl, rfl⟩ := termAtIndex_empty ht'
    exact Option.some.inj (ht.symm.trans hlt)
  committed i hi t t' ht ht' := by
    obtain ⟨rfl, rfl⟩ := termAtIndex_empty ht'
    simpa [termAtIndex, eq_comm] using ht
  complete := Nat.zero_le _
  compacted := Nat.le_refl _
  current ht := by
    obtain ⟨rfl, rfl⟩ := termAtIndex_empty ht
    omega

theorem truthful_empty {l : RaftLogState Unit} {next : Nat} (hlo : 1 ≤ next) (hhi : next ≤ l.lastIndex + 1) :
    Truthful l {} ⟨next, 0⟩ where
  agree i hi t t' ht ht' := by
    obtain ⟨rfl, rfl⟩ := termAtIndex_empty ht'
    simpa [termAtIndex, eq_comm] using ht
  reached := Nat.zero_le _
  behind := hlo
  inside := hhi

theorem trimmedLeader_valid : trimmedLeader.Valid :=
  ⟨by decide, by decide, by decide, by simp [Boundary, trimmedLeader], by decide⟩

theorem trailingLeader_valid : trailingLeader.Valid :=
  ⟨by decide, by decide, by decide, by simp [Boundary, trailingLeader], by decide⟩

theorem repair_converges_trimmed :
    (Related trimmedLeader {} 0 1 ∧ Repairable trimmedLeader {} ∧ Truthful trimmedLeader {} ⟨4, 0⟩) ∧
      ∃ k, (repair trimmedLeader {} 1 8 k ⟨4, 0⟩).Settled := by
  have hrelated := related_empty trimmedLeader_valid
  have hrepairable : Repairable trimmedLeader {} := by
    refine ⟨.inl (by decide), fun t ht => ?_⟩
    have := (termAtIndex_empty ht).1
    simp [snapshotIndex, trimmedLeader] at this
  have hp : Truthful trimmedLeader {} ⟨4, 0⟩ := truthful_empty (by decide) (by decide)
  exact ⟨⟨hrelated, hrepairable, hp⟩, (repair_converges hrelated 8 hp.agree hp.reached).2 hrepairable 4 hp⟩

/-- With the two entries retained below the snapshot, an empty follower is probed
at index 2 for ever: the hint (index 1) lies under the snapshot, the fallback
answers with the snapshot's own index, and entry 1 is there to probe with. -/
theorem repair_diverges_trailing :
    Related trailingLeader {} 0 1 ∧ Truthful trailingLeader {} ⟨4, 0⟩ ∧
      ∀ k, ¬(repair trailingLeader {} 1 8 k ⟨4, 0⟩).Settled := by
  refine ⟨related_empty trailingLeader_valid, truthful_empty (by decide) (by decide), ?_⟩
  have hstart : round trailingLeader {} 1 8 ⟨4, 0⟩ = .refused ⟨2, 0⟩ := by decide
  have hagain : round trailingLeader {} 1 8 ⟨2, 0⟩ = .refused ⟨2, 0⟩ := by decide
  refine fun k => repair_never (S := fun next => next = 4 ∨ next = 2) (fun next hnext => ?_) k (.inl rfl)
  rcases hnext with rfl | rfl
  · exact ⟨2, hstart, .inr rfl⟩
  · exact ⟨2, hagain, .inr rfl⟩

end RaftLogState

end LiveMutex.Raft
