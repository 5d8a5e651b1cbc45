/-
How a follower puts a snapshot together: the chunks of one transfer go to a part file,
and a map remembers how much of it is written.

One transfer key is followed, with the file its path names; of the other transfers
only their number matters, for the limit. A call takes the mutex, and calls follow
one another. Every file operation succeeds.

* `stage_consistent`: whatever slices of a payload are delivered, what is staged is
  the payload up to where it is written;
* `Delivery.completes`: delivered in order, with any earlier chunks again in between,
  the payload is complete at the end.
-/
import Mathlib.Data.List.Infix

namespace LiveMutex.Raft

/-- What the map has for the key; the rest of the entry repeats the key. -/
structure PendingSnapshotTransfer where
  bytesWritten : Nat
  updatedAtMs : Nat
  deriving Repr, DecidableEq

structure SnapshotStagingConfig where
  installSnapshotMaxStagedTransfers : Nat
  installSnapshotMaxStagedBytes : Nat
  installSnapshotStaleTransferAfterMs : Nat
  deriving Repr, DecidableEq

/-- The transfer of one key and its part file. -/
structure SnapshotStaging where
  pending : Option PendingSnapshotTransfer
  file : Option (List UInt8)
  deriving Repr, DecidableEq

/-- A call for the key: the chunk, the clock at its start and when the entry is
touched, how many other transfers are staged, and whether the sweep of part files that
no entry tracks comes by. -/
structure SnapshotChunkFromLeader where
  lastIncludedIndex : Nat
  offset : Nat
  done : Bool
  chunk : List UInt8
  nowMs : Nat
  touchedMs : Nat
  otherTransfers : Nat
  sweepsOrphans : Bool
  deriving Repr, DecidableEq

inductive StagingError where
  | io
  | rpc (message : String)
  deriving Repr, DecidableEq

/-- `staged` is a chunk taken or known already, `completed` gives the path of the
file to the caller. -/
inductive StagingOutcome where
  | staged
  | completed
  | rejected (error : StagingError)
  deriving Repr, DecidableEq

/-- Whether the file has these bytes at the offset. -/
def stagedSnapshotChunkMatches (file : Option (List UInt8)) (offset : Nat) (chunk : List UInt8) :
    Except StagingError Bool :=
  match file with
  | none => .error .io
  | some bytes =>
    let chunkEnd := offset + chunk.length
    let fileLen := bytes.length
    if fileLen < chunkEnd then
      .error (.rpc ("snapshot transfer file length mismatch while verifying duplicate chunk; " ++
        s!"expected at least {chunkEnd} bytes actual={fileLen}"))
    else .ok ((bytes.drop offset).take chunk.length == chunk)

namespace SnapshotStaging

/-- The entry and its file are gone. -/
def discarded : SnapshotStaging := { pending := none, file := none }

/-- Entries that were not touched for long are dropped, and now and then the part
files that none tracks. -/
def cleanupStaleSnapshotTransfers (config : SnapshotStagingConfig) (s : SnapshotStaging)
    (call : SnapshotChunkFromLeader) : SnapshotStaging :=
  match s.pending with
  | some pending =>
    if config.installSnapshotStaleTransferAfterMs ≤ call.nowMs - pending.updatedAtMs then discarded else s
  | none => if call.sweepsOrphans then discarded else s

/-- A chunk that is written already is acknowledged if its bytes are the same. -/
def acknowledgeDuplicate (s : SnapshotStaging) (pending : PendingSnapshotTransfer) (call : SnapshotChunkFromLeader) :
    SnapshotStaging × StagingOutcome :=
  match stagedSnapshotChunkMatches s.file call.offset call.chunk with
  | .ok true => ({ s with pending := some { pending with updatedAtMs := call.touchedMs } }, .staged)
  | .ok false =>
    let lastIncludedIndex := call.lastIncludedIndex
    let offset := call.offset
    let chunkLen := call.chunk.length
    (discarded, .rejected (.rpc (s!"snapshot duplicate chunk mismatch for index {lastIncludedIndex}; " ++
      s!"offset={offset} len={chunkLen}")))
  | .error err => (discarded, .rejected err)

/-- The chunk is appended where the entry stands. -/
def writeChunk (config : SnapshotStagingConfig) (s : SnapshotStaging) (pending : PendingSnapshotTransfer)
    (call : SnapshotChunkFromLeader) : SnapshotStaging × StagingOutcome :=
  let lastIncludedIndex := call.lastIncludedIndex
  let expectedOffset := pending.bytesWritten
  let nextBytes := expectedOffset + call.chunk.length
  let limit := config.installSnapshotMaxStagedBytes
  if limit < nextBytes then
    (discarded, .rejected (.rpc (s!"snapshot transfer for index {lastIncludedIndex} would stage {nextBytes} " ++
      s!"bytes, exceeding configured limit {limit}")))
  else
    -- opened with `create`, so a missing file is an empty one
    let bytes := s.file.getD []
    let fileLen := bytes.length
    if fileLen ≠ expectedOffset then
      (discarded, .rejected (.rpc (s!"snapshot transfer file length mismatch for index {lastIncludedIndex}; " ++
        s!"expected={expectedOffset} actual={fileLen}")))
    else
      let file := some (bytes ++ call.chunk)
      if call.done then ({ pending := none, file }, .completed)
      else ({ pending := some { bytesWritten := nextBytes, updatedAtMs := call.touchedMs }, file }, .staged)

/-- What happens once the entry for the key stands. -/
def stagePending (config : SnapshotStagingConfig) (s : SnapshotStaging) (pending : PendingSnapshotTransfer)
    (call : SnapshotChunkFromLeader) : SnapshotStaging × StagingOutcome :=
  let lastIncludedIndex := call.lastIncludedIndex
  let expectedOffset := pending.bytesWritten
  let offset := call.offset
  if offset < expectedOffset ∧ offset + call.chunk.length ≤ expectedOffset ∧ call.done = false then
    acknowledgeDuplicate s pending call
  else if expectedOffset ≠ offset then
    (discarded, .rejected (.rpc (s!"snapshot chunk offset mismatch for index {lastIncludedIndex}; " ++
      s!"expected={expectedOffset} got={offset}")))
  else writeChunk config s pending call

/-- A transfer begins again: the old entry and file are removed first. -/
def restart (config : SnapshotStagingConfig) (call : SnapshotChunkFromLeader) : SnapshotStaging × StagingOutcome :=
  let lastIncludedIndex := call.lastIncludedIndex
  let limit := config.installSnapshotMaxStagedTransfers
  if limit ≤ call.otherTransfers then
    (discarded, .rejected (.rpc (s!"snapshot transfer for index {lastIncludedIndex} would exceed active transfer " ++
      s!"limit {limit}")))
  else
    let pending : PendingSnapshotTransfer := { bytesWritten := 0, updatedAtMs := call.nowMs }
    stagePending config { discarded with pending := some pending } pending call

def stageSnapshotChunk (config : SnapshotStagingConfig) (s : SnapshotStaging) (call : SnapshotChunkFromLeader) :
    SnapshotStaging × StagingOutcome :=
  let s := s.cleanupStaleSnapshotTransfers config call
  let lastIncludedIndex := call.lastIncludedIndex
  let offset := call.offset
  match s.pending with
  | none =>
    if offset = 0 then restart config call
    else (s, .rejected (.rpc (s!"snapshot chunk for index {lastIncludedIndex} started at offset {offset} " ++
      "without offset 0")))
  | some pending =>
    if offset = 0 then
      if call.chunk.length ≤ pending.bytesWritten ∧ call.done = false then acknowledgeDuplicate s pending call
      else restart config call
    else stagePending config s pending call

/-- The calls one after the other, with what each answers. -/
def stageAll (config : SnapshotStagingConfig) (s : SnapshotStaging) :
    List SnapshotChunkFromLeader → SnapshotStaging × List StagingOutcome
  | [] => (s, [])
  | call :: calls =>
    let next := s.stageSnapshotChunk config call
    let rest := stageAll config next.1 calls
    (rest.1, next.2 :: rest.2)

end SnapshotStaging

/-! ## Slices of a payload -/

/-- The chunk is what the payload has at the offset, and `done` only at its end. -/
structure SnapshotChunkFromLeader.IsSlice (call : SnapshotChunkFromLeader) (payload : List UInt8) : Prop where
  within : call.offset + call.chunk.length ≤ payload.length
  bytes : call.chunk = (payload.drop call.offset).take call.chunk.length
  done : call.done = true → call.offset + call.chunk.length = payload.length

namespace SnapshotStaging

variable {config : SnapshotStagingConfig} {payload : List UInt8} {s : SnapshotStaging}
  {call : SnapshotChunkFromLeader} {pending : PendingSnapshotTransfer}

/-- As much as the entry counts is in the file, and is the payload up to there. -/
def Consistent (payload : List UInt8) (s : SnapshotStaging) : Prop :=
  ∀ pending, s.pending = some pending → pending.bytesWritten ≤ payload.length ∧
    s.file = some (payload.take pending.bytesWritten)

theorem consistent_of_none (h : s.pending = none) : Consistent payload s := by
  intro pending hpending
  rw [h] at hpending
  exact absurd hpending (by simp)

/-- What a step leaves behind when all goes well. -/
structure StepOk (payload : List UInt8) (result : SnapshotStaging × StagingOutcome) : Prop where
  consistent : Consistent payload result.1
  completed : result.2 = .completed → result.1.file = some payload

theorem stepOk_rejected (err : StagingError) : StepOk payload (discarded, .rejected err) :=
  ⟨consistent_of_none rfl, by simp⟩

/-- Bytes the payload has there are found in what is written of it. -/
theorem matches_of_le (hslice : call.IsSlice payload) {written : Nat} (hw : written ≤ payload.length)
    (hle : call.offset + call.chunk.length ≤ written) :
    stagedSnapshotChunkMatches (some (payload.take written)) call.offset call.chunk = .ok true := by
  have hlen : (payload.take written).length = written := by
    rw [List.length_take]
    omega
  have hbytes : ((payload.take written).drop call.offset).take call.chunk.length = call.chunk := by
    rw [List.drop_take, List.take_take, Nat.min_eq_left (by omega)]
    exact hslice.bytes.symm
  simp only [stagedSnapshotChunkMatches, hlen]
  rw [if_neg (by omega), hbytes]
  simp

theorem acknowledgeDuplicate_eq (hslice : call.IsSlice payload) (hw : pending.bytesWritten ≤ payload.length)
    (hfile : s.file = some (payload.take pending.bytesWritten))
    (hle : call.offset + call.chunk.length ≤ pending.bytesWritten) :
    s.acknowledgeDuplicate pending call =
      ({ s with pending := some { pending with updatedAtMs := call.touchedMs } }, .staged) := by
  rw [acknowledgeDuplicate, hfile, matches_of_le hslice hw hle]

theorem stepOk_duplicate (hslice : call.IsSlice payload) (hw : pending.bytesWritten ≤ payload.length)
    (hfile : s.file = some (payload.take pending.bytesWritten))
    (hle : call.offset + call.chunk.length ≤ pending.bytesWritten) :
    StepOk payload (s.acknowledgeDuplicate pending call) := by
  rw [acknowledgeDuplicate_eq hslice hw hfile hle]
  refine ⟨fun p hp => ?_, by simp⟩
  cases hp
  exact ⟨hw, hfile⟩

/-- What is appended continues the payload. -/
theorem writeChunk_eq (hslice : call.IsSlice payload) (hoffset : call.offset = pending.bytesWritten)
    (hfile : s.file.getD [] = payload.take pending.bytesWritten)
    (hlimit : pending.bytesWritten + call.chunk.length ≤ config.installSnapshotMaxStagedBytes) :
    s.writeChunk config pending call =
      if call.done then ({ pending := none, file := some payload }, .completed)
      else ({ pending := some { bytesWritten := pending.bytesWritten + call.chunk.length,
                                updatedAtMs := call.touchedMs },
              file := some (payload.take (pending.bytesWritten + call.chunk.length)) }, .staged) := by
  have hwithin := hslice.within
  have hlen : (payload.take pending.bytesWritten).length = pending.bytesWritten := by
    rw [List.length_take]
    omega
  have happend : payload.take pending.bytesWritten ++ call.chunk =
      payload.take (pending.bytesWritten + call.chunk.length) := by
    rw [List.take_add, ← hoffset, ← hslice.bytes]
  simp only [writeChunk, hfile, hlen, happend]
  rw [if_neg (by omega), if_neg (by simp)]
  by_cases hdone : call.done = true
  · rw [if_pos hdone, if_pos hdone, ← hoffset, hslice.done hdone, List.take_length]
  · rw [if_neg hdone, if_neg hdone]

theorem stepOk_write (hslice : call.IsSlice payload) (hoffset : call.offset = pending.bytesWritten)
    (hfile : s.file.getD [] = payload.take pending.bytesWritten) :
    StepOk payload (s.writeChunk config pending call) := by
  by_cases hlimit : pending.bytesWritten + call.chunk.length ≤ config.installSnapshotMaxStagedBytes
  · rw [writeChunk_eq hslice hoffset hfile hlimit]
    split
    · exact ⟨consistent_of_none rfl, fun _ => rfl⟩
    · refine ⟨fun p hp => ?_, by simp⟩
      cases hp
      have := hslice.within
      exact ⟨by rw [← hoffset]; exact this, rfl⟩
  · rw [writeChunk]
    simp only [show config.installSnapshotMaxStagedBytes < pending.bytesWritten + call.chunk.length by omega, if_true]
    exact stepOk_rejected _

theorem stepOk_stagePending (hslice : call.IsSlice payload) (hw : pending.bytesWritten ≤ payload.length)
    (hfile : s.file.getD [] = payload.take pending.bytesWritten)
    (hsome : 0 < pending.bytesWritten → s.file = some (payload.take pending.bytesWritten)) :
    StepOk payload (s.stagePending config pending call) := by
  simp only [stagePending]
  split
  · rename_i hdup
    exact stepOk_duplicate hslice hw (hsome (by omega)) hdup.2.1
  · split
    · exact stepOk_rejected _
    · rename_i heq
      exact stepOk_write hslice (by omega) hfile

theorem stepOk_restart (hslice : call.IsSlice payload) : StepOk payload (restart config call) := by
  simp only [restart]
  split
  · exact stepOk_rejected _
  · exact stepOk_stagePending hslice (Nat.zero_le _) rfl (by simp)

theorem consistent_cleanup (h : Consistent payload s) :
    Consistent payload (s.cleanupStaleSnapshotTransfers config call) := by
  simp only [cleanupStaleSnapshotTransfers]
  split
  · split
    · exact consistent_of_none rfl
    · exact h
  · split
    · exact consistent_of_none rfl
    · exact h

/-- **One call.** -/
theorem stepOk_stage (hslice : call.IsSlice payload) (h : Consistent payload s) :
    StepOk payload (s.stageSnapshotChunk config call) := by
  have hclean : Consistent payload (s.cleanupStaleSnapshotTransfers config call) := consistent_cleanup h
  simp only [stageSnapshotChunk]
  generalize s.cleanupStaleSnapshotTransfers config call = t at hclean
  cases hpending : t.pending with
  | none =>
    dsimp only
    split
    · exact stepOk_restart hslice
    · exact ⟨consistent_of_none hpending, by simp⟩
  | some pending =>
    obtain ⟨hw, hfile⟩ := hclean pending hpending
    dsimp only
    split
    · rename_i hzero
      split
      · rename_i hdup
        exact stepOk_duplicate hslice hw hfile (by omega)
      · exact stepOk_restart hslice
    · exact stepOk_stagePending hslice hw (by rw [hfile]; rfl) (fun _ => hfile)

/-- **Any calls.** -/
theorem stage_consistent : ∀ {calls : List SnapshotChunkFromLeader} {s : SnapshotStaging}, Consistent payload s →
    (∀ call ∈ calls, call.IsSlice payload) → Consistent payload (s.stageAll config calls).1
  | [], _, h, _ => h
  | call :: calls, s, h, hslices => by
    have hstep : StepOk payload (s.stageSnapshotChunk config call) := stepOk_stage (hslices call List.mem_cons_self) h
    rw [stageAll]
    exact stage_consistent hstep.consistent fun c hc => hslices c (List.mem_cons_of_mem call hc)

/-! ## In order -/

/-- A delivery in order from where `written` bytes have gone: the next chunk, an
earlier one again, or the last. -/
inductive Delivery (payload : List UInt8) : Nat → List (Nat × List UInt8) → List SnapshotChunkFromLeader → Prop
  | last {written : Nat} {earlier : List (Nat × List UInt8)} {call : SnapshotChunkFromLeader} :
      call.IsSlice payload → call.offset = written → call.done = true → Delivery payload written earlier [call]
  | next {written : Nat} {earlier : List (Nat × List UInt8)} {call : SnapshotChunkFromLeader}
      {calls : List SnapshotChunkFromLeader} : call.IsSlice payload → call.offset = written → call.done = false →
      Delivery payload (written + call.chunk.length) ((call.offset, call.chunk) :: earlier) calls →
      Delivery payload written earlier (call :: calls)
  | again {written : Nat} {earlier : List (Nat × List UInt8)} {call : SnapshotChunkFromLeader}
      {calls : List SnapshotChunkFromLeader} : (call.offset, call.chunk) ∈ earlier → call.done = false →
      Delivery payload written earlier calls → Delivery payload written earlier (call :: calls)

/-- No call finds the entry untouched for too long. -/
def Timely (config : SnapshotStagingConfig) : Nat → List SnapshotChunkFromLeader → Prop
  | _, [] => True
  | touchedMs, call :: calls =>
    call.nowMs - touchedMs < config.installSnapshotStaleTransferAfterMs ∧ Timely config call.touchedMs calls

/-- The calls keep within the limits: time, transfers and bytes. -/
structure WithinLimits (config : SnapshotStagingConfig) (payload : List UInt8)
    (calls : List SnapshotChunkFromLeader) : Prop where
  timely : ∀ first rest, calls = first :: rest → Timely config first.touchedMs rest
  transfers : ∀ call ∈ calls, call.otherTransfers < config.installSnapshotMaxStagedTransfers
  bytes : payload.length ≤ config.installSnapshotMaxStagedBytes

/-- The payload is staged up to `written`. -/
def stagedTo (payload : List UInt8) (written touchedMs : Nat) : SnapshotStaging :=
  { pending := some { bytesWritten := written, updatedAtMs := touchedMs }, file := some (payload.take written) }

/-- What the next chunk leads to. -/
def afterNext (payload : List UInt8) (call : SnapshotChunkFromLeader) : SnapshotStaging × StagingOutcome :=
  if call.done then ({ pending := none, file := some payload }, .completed)
  else (stagedTo payload (call.offset + call.chunk.length) call.touchedMs, .staged)

theorem restart_eq (hslice : call.IsSlice payload) (hzero : call.offset = 0)
    (htransfers : call.otherTransfers < config.installSnapshotMaxStagedTransfers)
    (hbytes : payload.length ≤ config.installSnapshotMaxStagedBytes) :
    restart config call = afterNext payload call := by
  have hwithin := hslice.within
  simp only [restart]
  rw [if_neg (by omega)]
  simp only [stagePending]
  rw [if_neg (by omega), if_neg (by omega), writeChunk_eq hslice hzero rfl (by dsimp only; omega), afterNext, hzero]
  rfl

theorem cleanup_stagedTo {written touchedMs : Nat}
    (htime : call.nowMs - touchedMs < config.installSnapshotStaleTransferAfterMs) :
    (stagedTo payload written touchedMs).cleanupStaleSnapshotTransfers config call =
      stagedTo payload written touchedMs := by
  simp only [cleanupStaleSnapshotTransfers, stagedTo]
  rw [if_neg (by omega)]

theorem stage_next {touchedMs : Nat} (hslice : call.IsSlice payload)
    (htime : call.nowMs - touchedMs < config.installSnapshotStaleTransferAfterMs)
    (htransfers : call.otherTransfers < config.installSnapshotMaxStagedTransfers)
    (hbytes : payload.length ≤ config.installSnapshotMaxStagedBytes) :
    (stagedTo payload call.offset touchedMs).stageSnapshotChunk config call = afterNext payload call := by
  have hwithin := hslice.within
  simp only [stageSnapshotChunk, cleanup_stagedTo htime]
  simp only [stagedTo]
  by_cases hzero : call.offset = 0
  · -- at offset 0 an empty chunk is one that is written already; any other begins again
    rw [if_pos hzero]
    by_cases hdup : call.chunk.length ≤ call.offset ∧ call.done = false
    · rw [if_pos hdup, acknowledgeDuplicate_eq hslice (by dsimp only; omega) rfl (by dsimp only; omega), afterNext,
        hdup.2]
      simp only [Bool.false_eq_true, if_false, stagedTo, show call.offset + call.chunk.length = call.offset by omega]
    · rw [if_neg hdup, restart_eq hslice hzero htransfers hbytes]
  · rw [if_neg hzero]
    simp only [stagePending]
    rw [if_neg (by omega), if_neg (by omega), writeChunk_eq hslice rfl rfl (by dsimp only; omega), afterNext]
    rfl

theorem stage_again {written touchedMs : Nat} (hslice : call.IsSlice payload)
    (htime : call.nowMs - touchedMs < config.installSnapshotStaleTransferAfterMs)
    (hw : written ≤ payload.length) (hle : call.offset + call.chunk.length ≤ written) (hdone : call.done = false)
    (htransfers : call.otherTransfers < config.installSnapshotMaxStagedTransfers)
    (hbytes : payload.length ≤ config.installSnapshotMaxStagedBytes) :
    (stagedTo payload written touchedMs).stageSnapshotChunk config call =
      (stagedTo payload written call.touchedMs, .staged) := by
  by_cases hat : call.offset = written
  · -- an empty chunk right where the next one is expected
    subst hat
    rw [stage_next hslice htime htransfers hbytes, afterNext, hdone,
      show call.offset + call.chunk.length = call.offset by omega]
    rfl
  · simp only [stageSnapshotChunk, cleanup_stagedTo htime]
    simp only [stagedTo]
    by_cases hzero : call.offset = 0
    · rw [if_pos hzero, if_pos ⟨by omega, hdone⟩, acknowledgeDuplicate_eq hslice hw rfl hle]
    · rw [if_neg hzero]
      simp only [stagePending]
      rw [if_pos ⟨by omega, by omega, hdone⟩, acknowledgeDuplicate_eq hslice hw rfl hle]

/-- **In order, the payload is complete at the end**: every call but the last is
acknowledged, and the last hands the file over. -/
theorem Delivery.completes {written : Nat} {earlier : List (Nat × List UInt8)} {calls : List SnapshotChunkFromLeader}
    (h : Delivery payload written earlier calls) (hw : written ≤ payload.length)
    (hearlier : ∀ e ∈ earlier, e.1 + e.2.length ≤ written ∧ e.2 = (payload.drop e.1).take e.2.length)
    (htransfers : ∀ call ∈ calls, call.otherTransfers < config.installSnapshotMaxStagedTransfers)
    (hbytes : payload.length ≤ config.installSnapshotMaxStagedBytes) :
    ∀ touchedMs, Timely config touchedMs calls →
      ((stagedTo payload written touchedMs).stageAll config calls).1.file = some payload ∧
      ((stagedTo payload written touchedMs).stageAll config calls).2 =
        List.replicate (calls.length - 1) .staged ++ [.completed] := by
  induction h with
  | last hslice hoffset hdone =>
    rename_i written earlier call
    intro touchedMs htime
    subst hoffset
    simp only [stageAll, stage_next hslice htime.1 (htransfers call List.mem_cons_self) hbytes, afterNext, hdone,
      if_true]
    exact ⟨trivial, rfl⟩
  | next hslice hoffset hdone hrest ih =>
    rename_i written earlier call calls
    intro touchedMs htime
    subst hoffset
    have hne : calls ≠ [] := by rintro rfl; cases hrest
    have hlen := List.length_pos_iff.2 hne
    have hnext := ih hslice.within (by
      intro e he
      rcases List.mem_cons.1 he with rfl | he
      · exact ⟨Nat.le_refl _, hslice.bytes⟩
      · exact ⟨by have := (hearlier e he).1; omega, (hearlier e he).2⟩)
      (fun c hc => htransfers c (List.mem_cons_of_mem call hc)) call.touchedMs htime.2
    simp only [stageAll, stage_next hslice htime.1 (htransfers call List.mem_cons_self) hbytes, afterNext, hdone,
      Bool.false_eq_true, if_false]
    refine ⟨hnext.1, ?_⟩
    rw [hnext.2, List.length_cons, show calls.length + 1 - 1 = calls.length - 1 + 1 by omega, List.replicate_succ]
    rfl
  | again hmem hdone hrest ih =>
    rename_i written earlier call calls
    intro touchedMs htime
    have hne : calls ≠ [] := by rintro rfl; cases hrest
    have hlen := List.length_pos_iff.2 hne
    obtain ⟨hle, hchunk⟩ := hearlier _ hmem
    have hslice : call.IsSlice payload := ⟨by dsimp only at hle; omega, hchunk, by rw [hdone]; simp⟩
    have hnext := ih hw hearlier (fun c hc => htransfers c (List.mem_cons_of_mem call hc)) call.touchedMs htime.2
    simp only [stageAll, stage_again hslice htime.1 hw hle hdone (htransfers call List.mem_cons_self) hbytes]
    refine ⟨hnext.1, ?_⟩
    rw [hnext.2, List.length_cons, show calls.length + 1 - 1 = calls.length - 1 + 1 by omega, List.replicate_succ]
    rfl

theorem stage_first (hpending : s.pending = none) (hslice : call.IsSlice payload) (hzero : call.offset = 0)
    (htransfers : call.otherTransfers < config.installSnapshotMaxStagedTransfers)
    (hbytes : payload.length ≤ config.installSnapshotMaxStagedBytes) :
    s.stageSnapshotChunk config call = afterNext payload call := by
  have hclean : (s.cleanupStaleSnapshotTransfers config call).pending = none := by
    simp only [cleanupStaleSnapshotTransfers, hpending]
    split
    · rfl
    · exact hpending
  simp only [stageSnapshotChunk, hclean, hzero, if_true, restart_eq hslice hzero htransfers hbytes]

theorem Delivery.completes_from_start {calls : List SnapshotChunkFromLeader} (hpending : s.pending = none)
    (h : Delivery payload 0 [] calls) (hlimits : WithinLimits config payload calls) :
    (s.stageAll config calls).1.file = some payload ∧
      (s.stageAll config calls).2 = List.replicate (calls.length - 1) .staged ++ [.completed] := by
  have hbytes := hlimits.bytes
  cases h with
  | last hslice hoffset hdone =>
    rename_i call
    have hfirst : s.stageSnapshotChunk config call = afterNext payload call :=
      stage_first hpending hslice hoffset (hlimits.transfers call List.mem_cons_self) hbytes
    simp only [stageAll, hfirst, afterNext, hdone, if_true]
    exact ⟨trivial, rfl⟩
  | next hslice hoffset hdone hrest =>
    rename_i call calls
    have hfirst : s.stageSnapshotChunk config call = afterNext payload call :=
      stage_first hpending hslice hoffset (hlimits.transfers call List.mem_cons_self) hbytes
    have hne : calls ≠ [] := by rintro rfl; cases hrest
    have hlen := List.length_pos_iff.2 hne
    rw [← hoffset] at hrest
    have hnext : ((stagedTo payload (call.offset + call.chunk.length) call.touchedMs).stageAll config
        calls).1.file = some payload ∧ _ := hrest.completes hslice.within (by
      intro e he
      rw [List.mem_singleton.1 he]
      exact ⟨Nat.le_refl _, hslice.bytes⟩)
      (fun c hc => hlimits.transfers c (List.mem_cons_of_mem call hc)) hbytes call.touchedMs
      (hlimits.timely call calls rfl)
    simp only [stageAll, hfirst, afterNext, hdone, Bool.false_eq_true, if_false]
    refine ⟨hnext.1, ?_⟩
    rw [hnext.2, List.length_cons, show calls.length + 1 - 1 = calls.length - 1 + 1 by omega, List.replicate_succ]
    rfl
  | again hmem _ _ => exact absurd hmem List.not_mem_nil

/-- **Staging reassembles the payload.** Whatever slices of it are delivered in
whatever order, and whatever file was left at the path: as long as a transfer is staged
its file is as long as the entry counts and is the beginning of the payload, and a
file that is handed over is the payload. Where nothing is staged, a delivery in order
with any earlier chunks again in between is acknowledged throughout and completes. -/
theorem stageSnapshotChunk_reassembles (config : SnapshotStagingConfig) (payload : List UInt8)
    (leftover : Option (List UInt8)) :
    (∀ calls : List SnapshotChunkFromLeader, (∀ call ∈ calls, call.IsSlice payload) →
      (∀ pending, (stageAll config { pending := none, file := leftover } calls).1.pending = some pending →
        ∃ bytes, (stageAll config { pending := none, file := leftover } calls).1.file = some bytes ∧
          bytes.length = pending.bytesWritten ∧ bytes <+: payload) ∧
      ∀ call : SnapshotChunkFromLeader, call.IsSlice payload →
        ((stageAll config { pending := none, file := leftover } calls).1.stageSnapshotChunk config call).2 =
          .completed →
        ((stageAll config { pending := none, file := leftover } calls).1.stageSnapshotChunk config call).1.file =
          some payload) ∧
    ∀ (s : SnapshotStaging) (calls : List SnapshotChunkFromLeader), s.pending = none →
      Delivery payload 0 [] calls → WithinLimits config payload calls →
      (s.stageAll config calls).2 = List.replicate (calls.length - 1) .staged ++ [.completed] ∧
      (s.stageAll config calls).1.file = some payload := by
  refine ⟨fun calls hslices => ?_, fun s calls hpending hdelivery hlimits => ?_⟩
  · have hconsistent : Consistent payload (stageAll config { pending := none, file := leftover } calls).1 :=
      stage_consistent (consistent_of_none rfl) hslices
    refine ⟨fun pending hpending => ?_, fun call hslice => (stepOk_stage hslice hconsistent).completed⟩
    obtain ⟨hw, hfile⟩ := hconsistent pending hpending
    refine ⟨_, hfile, ?_, List.take_prefix _ _⟩
    rw [List.length_take]
    omega
  · exact (hdelivery.completes_from_start hpending hlimits).symm

/-- Room for one transfer of four bytes. -/
def sampleStagingConfig : SnapshotStagingConfig where
  installSnapshotMaxStagedTransfers := 1
  installSnapshotMaxStagedBytes := 4
  installSnapshotStaleTransferAfterMs := 10

def sampleChunk (offset : Nat) (done : Bool) (chunk : List UInt8) (nowMs : Nat) : SnapshotChunkFromLeader where
  lastIncludedIndex := 7
  offset := offset
  done := done
  chunk := chunk
  nowMs := nowMs
  touchedMs := nowMs
  otherTransfers := 0
  sweepsOrphans := false

/-- Four bytes in chunks of two, the first of them twice, where an old file lies. -/
theorem stageSnapshotChunk_reassembles_again :
    (stageAll sampleStagingConfig { pending := none, file := some [9] }
      [sampleChunk 0 false [1, 2] 0, sampleChunk 0 false [1, 2] 3, sampleChunk 2 true [3, 4] 6]).2 =
      [.staged, .staged, .completed] :=
  ((stageSnapshotChunk_reassembles sampleStagingConfig [1, 2, 3, 4] none).2 { pending := none, file := some [9] } _ rfl
    (.next ⟨by decide, by decide, by decide⟩ rfl rfl (.again (by decide) rfl
      (.last ⟨by decide, by decide, by decide⟩ rfl rfl)))
    ⟨by rintro first rest ⟨rfl, rfl⟩; exact ⟨by decide, by decide, trivial⟩, by decide, by decide⟩).1

end SnapshotStaging

end LiveMutex.Raft
