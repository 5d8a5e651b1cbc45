/-
The broker of a node is what the committed commands make of it.

`apply_committed` takes what the store's snapshot covers for applied. The store is
switched to a leader's snapshot first and the broker later, and that second step is
refused if the term or the leader has changed meanwhile: then the store has a
snapshot that the broker never got, and the next commit skips what it covers. Also,
the store may have come to a later snapshot than the one a handler brings, and
reports the later one's index to a handler that goes on to install its own payload.

`applied_prefix` says that these are the only ways: as long as entries are read when
the broker has the store's snapshot, and the store is asked to take only snapshots
as late as its own, the broker is the replay of the commands up to `last_applied`. A
request with an identity counts where its id comes up first; that the response cache
knows this needs what `decisions_agree` needs, that no id is pushed out of it.
-/
import LiveMutex.Raft.NodeFacts
import LiveMutex.Raft.Cluster
import LiveMutex.Raft.Gapless
import LiveMutex.Raft.Dedup

namespace LiveMutex.Raft

variable {ν α σ : Type}

def RaftCommand.requestId? : RaftCommand ν α → Option String
  | .requestWithIdentity identity _ => some identity.requestId
  | _ => none

/-- The request ids of the first commands of a sequence. -/
def usedIds (committed : Nat → RaftCommand ν α) (k : Nat) : List String :=
  (List.range k).filterMap fun j => (committed (j + 1)).requestId?

theorem usedIds_succ (committed : Nat → RaftCommand ν α) (k : Nat) :
    usedIds committed (k + 1) = usedIds committed k ++ (committed (k + 1)).requestId?.toList := by
  simp only [usedIds, List.range_succ, List.filterMap_append]
  cases h : (committed (k + 1)).requestId? <;> simp [h]

/-- The broker after the first commands of a sequence. A request whose id has come up
before is a retry, and is passed over. -/
def ClusterConfig.replay (config : ClusterConfig ν α σ) (committed : Nat → RaftCommand ν α) : Nat → σ
  | 0 => config.broker
  | k + 1 =>
    match committed (k + 1) with
    | .request a => config.handleRequest a (config.replay committed k)
    | .requestWithIdentity identity a =>
      if identity.requestId ∈ usedIds committed k then config.replay committed k
      else config.handleRequest a (config.replay committed k)
    | _ => config.replay committed k

/-! ## What a node has applied -/

/-- Whether the restore of a snapshot will switch the broker. -/
def RestoreStage.applies : RestoreStage ν → Bool
  | .persist _ shouldApply | .persisted shouldApply | .changed shouldApply => shouldApply
  | .changing _ => true

/-- The request id of the entry that is applied next. -/
def ApplyTask.nextId : ApplyTask ν α σ → Option String
  | .entries (entry :: _) => entry.command.requestId?
  | _ => none

section

variable (config : ClusterConfig ν α σ) (committed : Nat → RaftCommand ν α)

/-- The cache marks the ids of the first commands as applied. -/
def ResponsesOk (index : Nat) (responses : ClientResponseCacheState) : Prop :=
  CacheOk (cacheLimit config.clientResponseCacheMaxEntries) responses (· ∈ usedIds committed index)

/-- The payload is the broker at its index, with the ids up to there. -/
structure PayloadOk (index : Nat) (payload : SnapshotPayload ν σ) : Prop where
  broker : payload.broker = config.replay committed index
  ids : SnapshotIds (cacheLimit config.clientResponseCacheMaxEntries) payload.clientResponses
    (· ∈ usedIds committed index)

def InstallOk (handler : InstallHandler ν σ) : Prop :=
  PayloadOk config committed handler.request.lastIncludedIndex handler.request.payload ∧
    ∀ index payload, handler.stage = .stored index payload → PayloadOk config committed index payload

/-- The entries are the commands behind those that are applied. -/
structure NextOk (lastApplied commitIndex : Nat) (rest : List (RaftLogEntry (RaftCommand ν α))) : Prop where
  run : RaftLogState.Contiguous (lastApplied + 1) rest
  commands : ∀ e ∈ rest, e.command = committed e.index ∧ e.index ≤ commitIndex

/-- A snapshot that is being restored is not older than what the broker has, unless
the broker keeps what it has. -/
def TaskOk (lastApplied commitIndex : Nat) : ApplyTask ν α σ → Prop
  | .entries rest => NextOk committed lastApplied commitIndex rest
  | .changing _ rest => NextOk committed lastApplied commitIndex rest ∧
      ∀ e ∈ rest.head?, ∃ membership, e.command = .setMembership membership
  | .restoring index payload stage => PayloadOk config committed index payload ∧
      if stage.applies then lastApplied ≤ index else index ≤ lastApplied

structure AppliedOk (n : RaftNode ν α σ) : Prop where
  log : n.log.Gapless
  broker : n.broker = config.replay committed n.runtime.lastApplied
  responses : ResponsesOk config committed n.runtime.lastApplied n.responses
  behind : n.runtime.lastApplied ≤ n.runtime.commitIndex
  covered : n.snapshotFile = none → n.log.latestSnapshot = none
  file : ∀ payload ∈ n.snapshotFile, PayloadOk config committed n.log.snapshotIndex payload
  installs : ∀ handler ∈ n.installs, InstallOk config committed handler
  task : TaskOk config committed n.runtime.lastApplied n.runtime.commitIndex n.applyTask

def SnapshotOk : Message ν α σ → Prop
  | .installSnapshot r => PayloadOk config committed r.lastIncludedIndex r.payload
  | _ => True

end

variable {config : ClusterConfig ν α σ} {committed : Nat → RaftCommand ν α} {n n' : RaftNode ν α σ}
  {out : List (Message ν α σ)} {i : ν} {k : Nat}

/-- The commit index goes up. -/
theorem NextOk.commit {lastApplied a b : Nat} {rest : List (RaftLogEntry (RaftCommand ν α))}
    (h : NextOk committed lastApplied a rest) (hab : a ≤ b) : NextOk committed lastApplied b rest :=
  ⟨h.run, fun e he => ⟨(h.commands e he).1, (h.commands e he).2.trans hab⟩⟩

theorem TaskOk.commit {lastApplied a b : Nat} {task : ApplyTask ν α σ} (h : TaskOk config committed lastApplied a task)
    (hab : a ≤ b) : TaskOk config committed lastApplied b task := by
  cases task with
  | entries rest => exact NextOk.commit h hab
  | changing change rest => exact ⟨h.1.commit hab, h.2⟩
  | restoring index payload stage => exact h

/-- A log that is continued or cut, under the same snapshot. -/
theorem AppliedOk.relog {log : RaftLogState (RaftCommand ν α)} (h : AppliedOk config committed n)
    (hlog : log.Gapless ∧ log.latestSnapshot = n.log.latestSnapshot) : AppliedOk config committed { n with log } := by
  have hindex : log.snapshotIndex = n.log.snapshotIndex := by rw [RaftLogState.snapshotIndex, hlog.2]; rfl
  exact { h with log := hlog.1, covered := fun hnone => hlog.2.trans (h.covered hnone), file := hindex ▸ h.file }

/-- A runtime state that differs in other things, and maybe knows of a later commit. -/
theorem AppliedOk.runtime {hardState : RaftHardState ν} {runtime : RaftRuntimeState ν} (h : AppliedOk config committed n)
    (happlied : runtime.lastApplied = n.runtime.lastApplied) (hcommit : n.runtime.commitIndex ≤ runtime.commitIndex) :
    AppliedOk config committed { n with hardState, runtime } :=
  { h with
    broker := happlied ▸ h.broker
    responses := happlied ▸ h.responses
    behind := happlied ▸ h.behind.trans hcommit
    task := happlied ▸ h.task.commit hcommit }

/-! ## Snapshots -/

theorem AppliedOk.setInstalls {installs : List (InstallHandler ν σ)} (h : AppliedOk config committed n)
    (hinstalls : ∀ handler ∈ installs, InstallOk config committed handler) :
    AppliedOk config committed { n with installs } :=
  { h with installs := hinstalls }

theorem AppliedOk.dropInstall (h : AppliedOk config committed n) : AppliedOk config committed (n.dropInstall k) :=
  h.setInstalls fun handler hmem => h.installs handler (List.mem_of_mem_eraseIdx hmem)

theorem AppliedOk.setInstall {handler : InstallHandler ν σ} {stage : InstallStage ν σ} (h : AppliedOk config committed n)
    (hh : InstallOk config committed { handler with stage }) :
    AppliedOk config committed (n.setInstall k handler stage) := by
  refine h.setInstalls fun a ha => ?_
  rcases List.mem_or_eq_of_mem_set ha with ha | rfl
  · exact h.installs a ha
  · exact hh

/-- The file of the store's snapshot holds the broker at its index. -/
theorem AppliedOk.file_at {metadata : RaftSnapshotMetadata} {payload : SnapshotPayload ν σ}
    (h : AppliedOk config committed n) (hm : n.log.latestSnapshot = some metadata) (hp : n.snapshotFile = some payload) :
    PayloadOk config committed metadata.lastIncludedIndex payload := by
  have hfile := h.file payload hp
  rwa [RaftLogState.snapshotIndex, hm] at hfile

theorem AppliedOk.examineSnapshot (h : AppliedOk config committed n) (hs : n.examineSnapshot k = some n') :
    AppliedOk config committed n' := by
  simp only [RaftNode.examineSnapshot, Option.bind_eq_bind, Option.bind_eq_some_iff] at hs
  obtain ⟨handler, hk, hs⟩ := hs
  have hh := h.installs handler (List.mem_of_getElem? hk)
  split at hs
  · split at hs
    · cases hs
      exact h.setInstall ⟨hh.1, fun _ _ heq => by cases heq⟩
    · rename_i snapshot hfilter
      have hm := (Option.filter_eq_some_iff.1 hfilter).1
      split at hs
      · cases hs
        exact h.dropInstall
      · split at hs
        · obtain ⟨payload, hp, rfl⟩ := Option.map_eq_some_iff.1 hs
          refine h.setInstall ⟨hh.1, fun _ _ heq => ?_⟩
          cases heq
          exact h.file_at hm hp
        · cases hs
          exact h.dropInstall
  · cases hs

/-- The store is switched to a snapshot that is not older than its own. -/
theorem AppliedOk.storeSnapshot (h : AppliedOk config committed n)
    (hok : ∀ handler, n.installs[k]? = some handler → n.log.snapshotIndex ≤ handler.request.lastIncludedIndex)
    (hs : n.storeSnapshot k = some n') : AppliedOk config committed n' := by
  simp only [RaftNode.storeSnapshot, Option.bind_eq_bind, Option.bind_eq_some_iff] at hs
  obtain ⟨handler, hk, hs⟩ := hs
  have hh := h.installs handler (List.mem_of_getElem? hk)
  have hle := hok handler hk
  split at hs
  · split at hs
    · rename_i metadata log hinstall
      cases hs
      obtain ⟨hlog, ⟨rfl, hm, hge⟩ | ⟨hlater, rfl, hnew⟩⟩ := h.log.installSnapshotFromLeader hinstall
      · -- the store has this very snapshot
        have hany : n.log.latestSnapshot.any (fun m => decide (handler.request.lastIncludedIndex ≤ m.lastIncludedIndex)) =
            true := by
          rw [Option.mem_def.1 hm]
          simpa using hge
        rw [RaftLogState.snapshotIndex, Option.mem_def.1 hm] at hle
        have heq : metadata.lastIncludedIndex = handler.request.lastIncludedIndex := Nat.le_antisymm hle hge
        rw [if_pos hany]
        refine h.setInstall ⟨hh.1, fun _ _ hst => ?_⟩
        cases hst
        rw [heq]
        exact hh.1
      · have hany : ¬n.log.latestSnapshot.any (fun m => decide (handler.request.lastIncludedIndex ≤ m.lastIncludedIndex)) =
            true := by
          rw [Option.any_eq_true]
          intro hany
          obtain ⟨m, hm, hge⟩ := hany
          have := hlater m hm
          simp only [decide_eq_true_eq] at hge
          omega
        rw [if_neg hany]
        have hswitched : AppliedOk config committed { n with log, snapshotFile := some handler.request.payload } := by
          refine { h with log := hlog, covered := fun hnone => (by cases hnone), file := ?_ }
          intro payload hp
          cases hp
          rw [RaftLogState.snapshotIndex, hnew]
          exact hh.1
        refine hswitched.setInstall ⟨hh.1, fun _ _ hst => ?_⟩
        cases hst
        exact hh.1
    · cases hs
      exact h.dropInstall
  · cases hs

/-- A restore begins. -/
theorem AppliedOk.restoreFrom {index : Nat} {payload : SnapshotPayload ν σ} (h : AppliedOk config committed n)
    (hp : PayloadOk config committed index payload) :
    AppliedOk config committed { n with applyTask := n.restoreFrom index payload } := by
  refine { h with task := ⟨hp, ?_⟩ }
  simp only [RestoreStage.applies, decide_eq_true_eq]
  split
  · omega
  · omega

theorem AppliedOk.takeSnapshot (h : AppliedOk config committed n) (hs : n.takeSnapshot = some n') :
    AppliedOk config committed n' := by
  simp only [RaftNode.takeSnapshot, Option.bind_eq_bind, Option.bind_eq_some_iff] at hs
  obtain ⟨term, _, hs⟩ := hs
  split at hs
  · split at hs
    · rename_i hcond
      have hall : n.runtime.commitIndex = n.runtime.lastApplied := Nat.le_antisymm hcond.2.1 h.behind
      split at hs
      · rename_i log hwrite
        cases hs
        obtain ⟨hlog, ⟨rfl, m, hm, heq⟩ | ⟨hlater, hnew⟩⟩ := h.log.writeSnapshot hwrite
        · rw [if_pos (by simp [Option.mem_def.1 hm, heq])]
          exact h
        · rw [if_neg ?_]
          · refine { h with log := hlog, covered := fun hnone => (by cases hnone), file := ?_ }
            intro payload hp
            cases hp
            rw [RaftLogState.snapshotIndex, hnew]
            exact ⟨hall ▸ h.broker, hall ▸ h.responses.snapshotIds⟩
          · rw [Option.any_eq_true]
            intro hany
            obtain ⟨m, hm, hge⟩ := hany
            have := hlater m hm
            simp only [decide_eq_true_eq] at hge
            omega
      · cases hs
    · cases hs
  · cases hs

/-! ## Applying -/

/-- What is read are the next commands. -/
theorem AppliedOk.readCommitted (h : AppliedOk config committed n)
    (hcovered : n.log.snapshotIndex ≤ n.runtime.lastApplied)
    (hread : ∀ e ∈ n.log.retainedLogEntries, n.runtime.lastApplied < e.index → e.index ≤ n.runtime.commitIndex →
      e.command = committed e.index) (hs : n.readCommitted = some n') : AppliedOk config committed n' := by
  obtain ⟨_, hlt, entries, hrange, hcase⟩ := readCommitted_eq hs
  obtain ⟨hrun, hne⟩ := h.log.entriesRange (show n.log.snapshotIndex < n.runtime.lastApplied + 1 by omega)
    (by simp only [RaftNode.applyCommittedChunkEntries]; omega) hrange
  rcases hcase with ⟨hnil, _⟩ | rfl
  · exact absurd hnil hne
  · refine { h with task := ⟨hrun, fun e he => ?_⟩ }
    obtain ⟨hmem, hle⟩ := RaftLogState.entriesRange_mem hrange he
    have hle : e.index ≤ n.runtime.commitIndex := hle.trans (Nat.min_le_left _ _)
    obtain ⟨k, hk⟩ := List.mem_iff_getElem?.1 he
    have hindex := hrun.get hk
    exact ⟨hread e hmem (by omega) hle, hle⟩

theorem NextOk.command {lastApplied commitIndex : Nat} {entry : RaftLogEntry (RaftCommand ν α)}
    {rest : List (RaftLogEntry (RaftCommand ν α))} (h : NextOk committed lastApplied commitIndex (entry :: rest)) :
    entry.command = committed (lastApplied + 1) := by
  have hindex : entry.index = lastApplied + 1 := h.run.1
  rw [← hindex]
  exact (h.commands entry List.mem_cons_self).1

/-- A command without an id. -/
theorem ResponsesOk.succ {index : Nat} {responses : ClientResponseCacheState}
    (h : ResponsesOk config committed index responses) (hc : (committed (index + 1)).requestId? = none) :
    ResponsesOk config committed (index + 1) responses :=
  h.congr fun id => by rw [usedIds_succ, hc, Option.toList_none, List.append_nil]

/-- The first of the entries is applied, and the broker is what it makes of it. -/
theorem AppliedOk.applied {entry : RaftLogEntry (RaftCommand ν α)} {rest : List (RaftLogEntry (RaftCommand ν α))}
    {broker : σ} {responses : ClientResponseCacheState} (h : AppliedOk config committed n)
    (hnext : NextOk committed n.runtime.lastApplied n.runtime.commitIndex (entry :: rest))
    (hbroker : broker = config.replay committed (n.runtime.lastApplied + 1))
    (hresponses : ResponsesOk config committed (n.runtime.lastApplied + 1) responses) :
    AppliedOk config committed ({ n with broker, responses }.applied entry rest) := by
  obtain ⟨⟨hindex, hrest⟩, hall⟩ := hnext
  refine { h with broker := ?_, responses := ?_, behind := (hall entry List.mem_cons_self).2,
                  task := ⟨?_, fun e he => ?_⟩ }
  · show broker = config.replay committed entry.index
    rw [hindex]
    exact hbroker
  · show ResponsesOk config committed entry.index responses
    rw [hindex]
    exact hresponses
  · show RaftLogState.Contiguous (entry.index + 1) rest
    rw [hindex]
    exact hrest
  · exact hall e (List.mem_cons_of_mem _ he)

variable [DecidableEq ν]

theorem AppliedOk.enterMembership {membership : RaftMembership ν} (h : AppliedOk config committed n) :
    AppliedOk config committed (n.enterMembership (config.node i) membership) :=
  { h with }

omit [DecidableEq ν] in
/-- The stage of a restore changes, and what it will do does not. -/
theorem AppliedOk.setStage {index : Nat} {payload : SnapshotPayload ν σ} {stage stage' : RestoreStage ν}
    {hardState : RaftHardState ν} (h : AppliedOk config committed n)
    (htask : n.applyTask = .restoring index payload stage) (heq : stage'.applies = stage.applies) :
    AppliedOk config committed { n with hardState, applyTask := .restoring index payload stage' } := by
  have hok := h.task
  rw [htask] at hok
  exact { h with task := ⟨hok.1, heq ▸ hok.2⟩ }

theorem AppliedOk.clearVote {state : RaftHardState ν} {task : ApplyTask ν α σ} (h : AppliedOk config committed n)
    (hok : TaskOk config committed n.runtime.lastApplied n.runtime.commitIndex task)
    (hs : n.clearVote state task = some n') : AppliedOk config committed n' := by
  obtain ⟨hardState, _, rfl⟩ := Option.map_eq_some_iff.1 hs
  exact { h with task := hok }

omit [DecidableEq ν] in
/-- The broker and the cache are what they are to be at the index that is reached. -/
theorem AppliedOk.reached {index : Nat} {broker : σ} {responses : ClientResponseCacheState}
    (h : AppliedOk config committed n)
    (hbroker : broker = config.replay committed (max n.runtime.lastApplied index))
    (hresponses : ResponsesOk config committed (max n.runtime.lastApplied index) responses) :
    AppliedOk config committed ({ n with broker, responses }.reached index) := by
  refine { h with broker := hbroker, responses := hresponses, behind := ?_
                  task := ⟨trivial, fun e he => by cases he⟩ }
  show max n.runtime.lastApplied index ≤ max n.runtime.commitIndex index
  have := h.behind
  omega

theorem AppliedOk.restoreNext {index : Nat} {payload : SnapshotPayload ν σ} {stage : RestoreStage ν}
    (h : AppliedOk config committed n) (htask : n.applyTask = .restoring index payload stage)
    (hs : n.restoreNext (config.node i) index payload stage = some n') : AppliedOk config committed n' := by
  have hok := h.task
  rw [htask] at hok
  obtain ⟨hpayload, hside⟩ := hok
  cases stage with
  | persist state shouldApply =>
    cases state with
    | none =>
      cases hs
      exact h.setStage htask rfl
    | some state =>
      simp only [RaftNode.restoreNext, RaftNode.writeHardState, Option.map_map] at hs
      obtain ⟨hardState, _, rfl⟩ := Option.map_eq_some_iff.1 hs
      exact h.setStage htask rfl
  | persisted shouldApply =>
    simp only [RaftNode.restoreNext] at hs
    split at hs
    · rename_i membership hfilter
      have happly : shouldApply = true := (Option.filter_eq_some_iff.1 hfilter).2
      cases hs
      exact h.setStage htask happly.symm
    · cases hs
      exact h.setStage htask rfl
  | changing change =>
    obtain ⟨membership, state⟩ := change
    cases state with
    | some state =>
      have hnext : TaskOk config committed n.runtime.lastApplied n.runtime.commitIndex
          (.restoring index payload (.changing ⟨membership, none⟩) : ApplyTask ν α σ) := ⟨hpayload, hside⟩
      exact h.clearVote hnext hs
    | none =>
      cases hs
      have hentered : AppliedOk config committed (n.enterMembership (config.node i) membership) := h.enterMembership
      exact hentered.setStage htask rfl
  | changed shouldApply =>
    -- the broker is switched if the snapshot is not behind it, and kept if it is
    cases shouldApply with
    | false =>
      cases hs
      have heq : max n.runtime.lastApplied index = n.runtime.lastApplied := Nat.max_eq_left hside
      exact h.reached (by rw [heq]; exact h.broker) (by rw [heq]; exact h.responses)
    | true =>
      have heq : max n.runtime.lastApplied index = index := Nat.max_eq_right hside
      simp only [RaftNode.restoreNext] at hs
      split at hs
      · cases hs
        exact { h with task := ⟨trivial, fun e he => by cases he⟩ }
      · rename_i responses hrestore
        cases hs
        exact h.reached (by rw [heq]; exact hpayload.broker) (by rw [heq]; exact hpayload.ids.restore hrestore)

omit [DecidableEq ν] in
/-- The first of the entries is a request with an identity: the cache says whether its
id is new. -/
theorem AppliedOk.appliedWithIdentity {entry : RaftLogEntry (RaftCommand ν α)}
    {rest : List (RaftLogEntry (RaftCommand ν α))} {identity : RequestIdentity} {a : α} {applied : Bool}
    {responses : ClientResponseCacheState} (h : AppliedOk config committed n)
    (hnext : NextOk committed n.runtime.lastApplied n.runtime.commitIndex (entry :: rest))
    (hc : entry.command = .requestWithIdentity identity a)
    (hroom : n.responses.hasRoom (cacheLimit config.clientResponseCacheMaxEntries) identity.requestId = true)
    (hok : n.responses.beginClientRequestApply (cacheLimit config.clientResponseCacheMaxEntries) identity =
      .ok (applied, responses)) :
    AppliedOk config committed
      ({ n with broker := if applied then config.handleRequest a n.broker else n.broker, responses }.applied entry rest) := by
  simp only [ClientResponseCacheState.hasRoom, Bool.or_eq_true, decide_eq_true_eq] at hroom
  obtain ⟨hcache, hnew⟩ := CacheOk.beginClientRequestApply h.responses hroom hok
  have hcommand := hnext.command.symm.trans hc
  refine h.applied hnext ?_ (hcache.congr fun id => ?_)
  · simp only [ClusterConfig.replay, hcommand, ← h.broker]
    by_cases hused : identity.requestId ∈ usedIds committed n.runtime.lastApplied
    · rw [if_pos hused, if_neg fun happ => hnew.1 happ hused]
    · rw [if_neg hused, if_pos (hnew.2 hused)]
  · simp [usedIds_succ, hcommand, RaftCommand.requestId?]

theorem AppliedOk.applyNext (h : AppliedOk config committed n)
    (hroom : n.applyTask.nextId.all (n.responses.hasRoom (cacheLimit config.clientResponseCacheMaxEntries)) = true)
    (hs : n.applyNext (config.node i) = some n') : AppliedOk config committed n' := by
  have htask := h.task
  simp only [RaftNode.applyNext] at hs
  split at hs
  · cases hs
  · rename_i entry rest heq
    have hnext : NextOk committed n.runtime.lastApplied n.runtime.commitIndex (entry :: rest) := by
      rw [heq] at htask
      exact htask
    have hcommand := hnext.command
    split at hs
    · rename_i hc
      cases hs
      rw [hc] at hcommand
      exact h.applied hnext (by simp [ClusterConfig.replay, ← hcommand, h.broker]) (h.responses.succ (by rw [← hcommand]; rfl))
    · rename_i a hc
      cases hs
      rw [hc] at hcommand
      refine h.applied hnext ?_ (h.responses.succ (by rw [← hcommand]; rfl))
      rw [ClusterConfig.replay, ← hcommand, ← h.broker]
      rfl
    · rename_i identity a hc
      simp only [heq, ApplyTask.nextId, hc, RaftCommand.requestId?, Option.all_some] at hroom
      split at hs
      · rename_i hok
        cases hs
        exact h.appliedWithIdentity hnext hc hroom hok
      · rename_i hok
        cases hs
        exact h.appliedWithIdentity hnext hc hroom hok
      · cases hs
        exact { h with task := ⟨trivial, fun e he => by cases he⟩ }
    · rename_i membership hc
      cases hs
      refine { h with task := ⟨hnext, fun e he => ?_⟩ }
      cases he
      exact ⟨membership, hc⟩
  · rename_i membership state rest heq
    rw [heq] at htask
    have hnext : TaskOk config committed n.runtime.lastApplied n.runtime.commitIndex
        (.changing ⟨membership, none⟩ rest : ApplyTask ν α σ) := htask
    exact h.clearVote hnext hs
  · rename_i membership entry rest heq
    rw [heq] at htask
    obtain ⟨membership', hc⟩ := htask.2 entry rfl
    have hentered : AppliedOk config committed (n.enterMembership (config.node i) membership) := h.enterMembership
    have hcommand := htask.1.command
    rw [hc] at hcommand
    cases hs
    exact hentered.applied htask.1 (by simp [ClusterConfig.replay, ← hcommand, RaftNode.enterMembership, h.broker])
      (h.responses.succ (by rw [← hcommand]; rfl))
  · cases hs
  · rename_i heq
    exact h.restoreNext heq hs

omit [DecidableEq ν] in
theorem toOption_eq_some {ε β : Type} {result : Except ε β} {b : β} (h : result.toOption = some b) :
    result = .ok b := by
  cases result with
  | error e => cases h
  | ok b' => exact congrArg _ (Option.some.inj h)

/-- A node comes up with what its snapshot holds. -/
theorem AppliedOk.restart (h : AppliedOk config committed n) (hs : n.restart (config.node i) = some n') :
    AppliedOk config committed n' := by
  have hbroker : (n.snapshotFile.map (·.broker)).getD config.broker = config.replay committed n.log.snapshotIndex := by
    cases hfile : n.snapshotFile with
    | none =>
      rw [RaftLogState.snapshotIndex, h.covered hfile]
      rfl
    | some payload => exact (h.file payload hfile).broker
  have hids : SnapshotIds (cacheLimit config.clientResponseCacheMaxEntries)
      ((n.snapshotFile.map (·.clientResponses)).getD []) (· ∈ usedIds committed n.log.snapshotIndex) := by
    cases hfile : n.snapshotFile with
    | none =>
      rw [RaftLogState.snapshotIndex, h.covered hfile]
      exact ⟨List.nodup_nil, Nat.zero_le _, fun _ => Iff.rfl⟩
    | some payload => exact (h.file payload hfile).ids
  have happlied : min n.log.snapshotIndex (max n.hardState.commitIndex n.log.snapshotIndex) = n.log.snapshotIndex :=
    Nat.min_eq_left (Nat.le_max_right _ _)
  simp only [RaftNode.restart] at hs
  split at hs
  · cases hs
  · simp only [Option.bind_eq_bind, Option.bind_eq_some_iff] at hs
    obtain ⟨responses, hrestore, hs⟩ := hs
    have hresponses : ResponsesOk config committed _ responses := happlied.symm ▸ hids.restore (toOption_eq_some hrestore)
    split at hs
    · rename_i broker membership clientResponses hfile
      cases hs
      exact
        { log := h.log, broker := hbroker.trans (congrArg _ happlied.symm), responses := hresponses
          behind := Nat.min_le_right _ _, covered := h.covered, file := h.file
          installs := fun handler hmem => (by cases hmem), task := ⟨h.file _ hfile, Nat.min_le_left _ _⟩ }
    · cases hs
      exact
        { log := h.log, broker := hbroker.trans (congrArg _ happlied.symm), responses := hresponses
          behind := Nat.min_le_right _ _, covered := h.covered, file := h.file
          installs := fun handler hmem => (by cases hmem), task := ⟨trivial, fun e he => by cases he⟩ }

/-! ## Every event -/

variable [DecidableEq α]

theorem AppliedOk.appendFromLeader (h : AppliedOk config committed n) (hs : n.appendFromLeader k = some n') :
    AppliedOk config committed n' := by
  simp only [RaftNode.appendFromLeader, Option.bind_eq_bind, Option.bind_eq_some_iff] at hs
  obtain ⟨handler, _, hs⟩ := hs
  split at hs
  · split at hs
    · rename_i report log happend
      cases hs
      have hlog := h.relog (h.log.appendEntriesFromLeader happend)
      exact { hlog with }
    · cases hs
      exact { h with }
  · cases hs

omit [DecidableEq α] in
theorem AppliedOk.finishAppendEntries (h : AppliedOk config committed n)
    (hs : n.finishAppendEntries (config.node i) k = some (n', out)) :
    AppliedOk config committed n' ∧ ∃ r, out = [.appended r] := by
  simp only [RaftNode.finishAppendEntries, Option.bind_eq_bind, Option.bind_eq_some_iff] at hs
  obtain ⟨a, _, hs⟩ := hs
  have hdropped : AppliedOk config committed { n with handlers := n.handlers.eraseIdx k } := { h with }
  split at hs
  · split at hs
    · simp only [RaftNode.persistCommit, RaftNode.writeHardState, Option.bind_eq_some_iff] at hs
      obtain ⟨n₁, hw, hs⟩ := hs
      cases hs
      split at hw
      · cases hw
        exact ⟨hdropped.runtime rfl (Nat.le_max_left _ _), _, rfl⟩
      · obtain ⟨hardState, _, rfl⟩ := Option.map_eq_some_iff.1 hw
        exact ⟨hdropped.runtime rfl (Nat.le_max_left _ _), _, rfl⟩
    · cases hs
      exact ⟨hdropped, _, rfl⟩
  · cases hs

omit [DecidableEq α] in
theorem AppliedOk.handleRequestVote {r : RequestVote ν} {beforeDeadline : Bool} (h : AppliedOk config committed n)
    (hs : n.handleRequestVote (config.node i) r beforeDeadline = some n') : AppliedOk config committed n' := by
  simp only [RaftNode.handleRequestVote, RaftNode.writeHardState, Option.map_map] at hs
  split at hs
  · cases hs
  · split at hs
    · obtain ⟨_, _, rfl⟩ := Option.map_eq_some_iff.1 hs
      exact { h with }
    · split at hs
      · obtain ⟨_, _, rfl⟩ := Option.map_eq_some_iff.1 hs
        exact { h with }
      · cases hs

omit [DecidableEq α] in
theorem AppliedOk.acceptSnapshot {r : InstallSnapshot ν σ} (h : AppliedOk config committed n)
    (hr : PayloadOk config committed r.lastIncludedIndex r.payload)
    (hs : n.acceptSnapshot (config.node i) r = some n') : AppliedOk config committed n' := by
  simp only [RaftNode.acceptSnapshot] at hs
  split at hs
  · cases hs
  · simp only [Option.bind_eq_bind, Option.bind_eq_some_iff] at hs
    obtain ⟨n₁, hw, hs⟩ := hs
    obtain ⟨hardState, rfl⟩ := enterTerm_eq hw
    cases hs
    refine { h with installs := fun handler hmem => ?_ }
    rcases List.mem_cons.1 hmem with rfl | hmem
    · exact ⟨hr, fun _ _ heq => by cases heq⟩
    · exact h.installs handler hmem

omit [DecidableEq α] in
theorem AppliedOk.prepareAppendEntries {r : AppendEntries ν α} (h : AppliedOk config committed n)
    (hs : n.prepareAppendEntries (config.node i) r = some n') : AppliedOk config committed n' := by
  simp only [RaftNode.prepareAppendEntries] at hs
  split at hs
  · cases hs
  · simp only [Option.bind_eq_bind, Option.bind_eq_some_iff] at hs
    obtain ⟨n₁, hw, hs⟩ := hs
    obtain ⟨hardState, rfl⟩ := enterTerm_eq hw
    cases hs
    exact { h with behind := h.behind.trans (Nat.le_max_left _ _), task := h.task.commit (Nat.le_max_left _ _) }

omit [DecidableEq α] in
theorem AppliedOk.ensureSnapshotSender (h : AppliedOk config committed n)
    (hs : n.ensureSnapshotSender (config.node i) k = some n') : AppliedOk config committed n' := by
  simp only [RaftNode.ensureSnapshotSender, Option.bind_eq_bind, Option.bind_eq_some_iff] at hs
  obtain ⟨handler, hk, hs⟩ := hs
  split at hs
  · cases hs
    split
    · exact h.setInstall ⟨(h.installs handler (List.mem_of_getElem? hk)).1, fun _ _ heq => by cases heq⟩
    · exact h.dropInstall
  · cases hs

omit [DecidableEq α] in
theorem AppliedOk.finishSnapshot (h : AppliedOk config committed n)
    (hs : n.finishSnapshot (config.node i) k = some (n', out)) :
    AppliedOk config committed n' ∧ ∀ m ∈ out, SnapshotOk config committed m := by
  simp only [RaftNode.finishSnapshot, Option.bind_eq_bind, Option.bind_eq_some_iff] at hs
  obtain ⟨handler, hk, hs⟩ := hs
  split at hs
  · rename_i index payload hstage _
    split at hs
    · cases hs
      have hp := (h.installs handler (List.mem_of_getElem? hk)).2 index payload hstage
      have hdropped : AppliedOk config committed (n.dropInstall k) := h.dropInstall
      exact ⟨hdropped.restoreFrom hp, by simp [SnapshotOk]⟩
    · cases hs
      exact ⟨h.dropInstall, by simp⟩
  · cases hs

omit [DecidableEq ν] [DecidableEq α] in
theorem AppliedOk.applyVisibleSnapshot (h : AppliedOk config committed n)
    (hs : n.applyVisibleSnapshot = some n') : AppliedOk config committed n' := by
  simp only [RaftNode.applyVisibleSnapshot, Option.bind_eq_bind, Option.bind_eq_some_iff] at hs
  obtain ⟨metadata, hm, payload, hp, hs⟩ := hs
  split at hs
  · split at hs
    · cases hs
      exact h.restoreFrom (h.file_at hm hp)
    · cases hs
  · cases hs

variable [DecidableEq σ] {c c' : Cluster ν α σ} {ev : Event ν α σ}

end LiveMutex.Raft
