/-
How a leader cuts a snapshot into frames: each holds as many bytes of the payload,
in base64, as were asked for and as fit the frame.

The rest of a frame is JSON whose length does not depend on the data: it is taken as
given, by offset and by whether the chunk is the last, and `false` is one byte longer
than `true`. Base64 digits are written into the JSON as they are. Lengths are those
of buffers in memory, far from the end of `usize`, and the saturating sums of the
source are plain ones.

* `largestFittingRawChunk_spec`: the length computed in closed form is the largest
  that fits;
* `buildBoundedInstallSnapshotRpc_maximal`: so is the one that is sent, and from
  offset 0 on the chunks make up the payload.
-/
import LiveMutex.Lib.Base64
import Mathlib.Tactic.SplitIfs

namespace LiveMutex.Raft

inductive SnapshotRpcError where
  | rpc (message : String)
  | frameSizeEstimateMismatch (rpc : String) (estimatedBytes actualBytes : Nat)
  deriving Repr, DecidableEq

/-- What is in a frame beside the fixed part. -/
structure InstallSnapshotFrameView where
  offset : Nat
  done : Bool
  data : List Char
  deriving Repr, DecidableEq

structure InstallSnapshotChunkFrame where
  body : InstallSnapshotFrameView
  rawLen : Nat
  frameLen : Nat
  frameClamped : Bool
  done : Bool
  deriving Repr, DecidableEq

structure InstallSnapshotFrameSizer where
  offset : Nat
  payloadLen : Nat
  emptyDoneFrameLen : Nat
  emptyNotDoneFrameLen : Nat
  deriving Repr, DecidableEq

def base64PaddedLen (rawLen : Nat) : Nat := (rawLen + 2) / 3 * 4

def maxBase64RawLenForEncodedBudget (encodedBudget : Nat) : Nat := encodedBudget / 4 * 3

namespace InstallSnapshotFrameSizer

def frameLen (sizer : InstallSnapshotFrameSizer) (rawLen : Nat) : Nat :=
  let chunkEnd := min (sizer.offset + rawLen) sizer.payloadLen
  let fixedLen := if sizer.payloadLen ≤ chunkEnd then sizer.emptyDoneFrameLen else sizer.emptyNotDoneFrameLen
  fixedLen + base64PaddedLen (chunkEnd - sizer.offset)

end InstallSnapshotFrameSizer

def installSnapshotLargestFittingRawChunk (sizer : InstallSnapshotFrameSizer) (requested frameBudget : Nat) :
    Option (Nat × Nat) :=
  let frameBudget := max frameBudget 1
  let remaining := sizer.payloadLen - sizer.offset
  let requested := min requested remaining
  if requested = 0 then
    let frameLen := sizer.frameLen 0
    if frameLen ≤ frameBudget then some (0, frameLen) else none
  else
    let requestedFrameLen := sizer.frameLen requested
    if requestedFrameLen ≤ frameBudget then some (requested, requestedFrameLen)
    else
      let maxNonFinalRawLen := remaining - 1
      let candidate := min (min (maxBase64RawLenForEncodedBudget (frameBudget - sizer.emptyNotDoneFrameLen))
        requested) maxNonFinalRawLen
      if candidate = 0 then none
      else
        let frameLen := sizer.frameLen candidate
        if frameLen ≤ frameBudget then some (candidate, frameLen) else none

section Build

-- the length of the JSON around empty data, at an offset and with a `done`
variable (emptyDataFrameLen : Nat → Bool → Nat)

def InstallSnapshotFrameView.len (view : InstallSnapshotFrameView) : Nat :=
  emptyDataFrameLen view.offset view.done + view.data.length

def installSnapshotChunkFrameWithLen (payload : List UInt8) (offset rawLen frameLen : Nat) :
    Except SnapshotRpcError InstallSnapshotChunkFrame :=
  let payloadLen := payload.length
  if payloadLen < offset then
    .error (.rpc s!"InstallSnapshot offset {offset} is beyond payload length {payloadLen}")
  else
    let chunkEnd := min (offset + rawLen) payloadLen
    let done := decide (payloadLen ≤ chunkEnd)
    let body : InstallSnapshotFrameView :=
      { offset, done, data := Base64.encode ((payload.drop offset).take (chunkEnd - offset)) }
    if body.len emptyDataFrameLen ≠ frameLen then
      .error (.frameSizeEstimateMismatch "installSnapshot" frameLen (body.len emptyDataFrameLen))
    else .ok { body, rawLen := chunkEnd - offset, frameLen, frameClamped := false, done }

def installSnapshotFrameSizer (offset payloadLen : Nat) : InstallSnapshotFrameSizer :=
  { offset, payloadLen, emptyDoneFrameLen := emptyDataFrameLen offset true,
    emptyNotDoneFrameLen := emptyDataFrameLen offset false }

def buildBoundedInstallSnapshotRpc (payload : List UInt8) (offset configuredChunkBytes maxFrameBytes : Nat) :
    Except SnapshotRpcError InstallSnapshotChunkFrame :=
  let payloadLen := payload.length
  if payloadLen < offset then
    .error (.rpc s!"InstallSnapshot offset {offset} is beyond payload length {payloadLen}")
  else
    let frameBudget := max maxFrameBytes 1
    let sizer := installSnapshotFrameSizer emptyDataFrameLen offset payloadLen
    let remaining := payloadLen - offset
    let requested := if payload.isEmpty then 0 else min (max configuredChunkBytes 1) remaining
    let requestedFrameLen := sizer.frameLen requested
    if requestedFrameLen ≤ frameBudget then
      installSnapshotChunkFrameWithLen emptyDataFrameLen payload offset requested requestedFrameLen
    else if requested = 0 then
      .error (.rpc (s!"empty InstallSnapshot RPC frame has {requestedFrameLen} bytes, exceeding configured " ++
        s!"max frame bytes {frameBudget}"))
    else match installSnapshotLargestFittingRawChunk sizer requested frameBudget with
      | none =>
        let oneByteFrameLen := sizer.frameLen 1
        .error (.rpc (s!"single-byte InstallSnapshot RPC frame has {oneByteFrameLen} bytes, exceeding configured " ++
          s!"max frame bytes {frameBudget}"))
      | some (bestRawLen, bestFrameLen) => do
        let best ← installSnapshotChunkFrameWithLen emptyDataFrameLen payload offset bestRawLen bestFrameLen
        return { best with frameClamped := true }

/-- The leader's loop over a snapshot, as long as the follower takes what is sent:
the frames, and the error if one cannot be built. `none` is a loop that has not
ended yet. -/
def sendInstallSnapshot (payload : List UInt8) (configuredChunkBytes maxFrameBytes : Nat) :
    Nat → Nat → Option (List InstallSnapshotChunkFrame × Option SnapshotRpcError)
  | 0, _ => none
  | fuel + 1, offset =>
    match buildBoundedInstallSnapshotRpc emptyDataFrameLen payload offset configuredChunkBytes maxFrameBytes with
    | .error err => some ([], some err)
    | .ok chunk =>
      if chunk.done then some ([chunk], none)
      else (sendInstallSnapshot payload configuredChunkBytes maxFrameBytes fuel (offset + chunk.rawLen)).map
        fun rest => (chunk :: rest.1, rest.2)

/-! ## Which lengths fit -/

/-- The frame for `rawLen` bytes at the offset. -/
def chunkView (payload : List UInt8) (offset rawLen : Nat) : InstallSnapshotFrameView :=
  { offset, done := decide (offset + rawLen = payload.length),
    data := Base64.encode ((payload.drop offset).take rawLen) }

/-- A length that may be sent. -/
def Fits (payload : List UInt8) (offset configuredChunkBytes maxFrameBytes rawLen : Nat) : Prop :=
  1 ≤ rawLen ∧ rawLen ≤ min (max configuredChunkBytes 1) (payload.length - offset) ∧
    (chunkView payload offset rawLen).len emptyDataFrameLen ≤ maxFrameBytes

end Build

section Sizes

variable {sizer : InstallSnapshotFrameSizer} {rawLen requested : Nat}

theorem frameLen_of_le (hle : sizer.offset + rawLen ≤ sizer.payloadLen) :
    sizer.frameLen rawLen = (if sizer.offset + rawLen = sizer.payloadLen then sizer.emptyDoneFrameLen
      else sizer.emptyNotDoneFrameLen) + base64PaddedLen rawLen := by
  have hend : min (sizer.offset + rawLen) sizer.payloadLen = sizer.offset + rawLen := by omega
  simp only [InstallSnapshotFrameSizer.frameLen, hend, Nat.add_sub_cancel_left]
  split_ifs <;> omega

/-- **The closed form.** When the requested length does not fit, what is found is
the largest that does; nothing is found only when none does. The last chunk is one
byte shorter around its data, so a longer one may fit where a shorter one does not:
that one is the requested one. -/
theorem largestFittingRawChunk_spec (sizer : InstallSnapshotFrameSizer) (budget : Nat) (hpos : 0 < requested)
    (hle : sizer.offset + requested ≤ sizer.payloadLen)
    (hempty : sizer.emptyNotDoneFrameLen = sizer.emptyDoneFrameLen + 1)
    (hbig : max budget 1 < sizer.frameLen requested) :
    match installSnapshotLargestFittingRawChunk sizer requested budget with
    | none => ∀ r, 1 ≤ r → r ≤ requested → max budget 1 < sizer.frameLen r
    | some (best, bestLen) => 1 ≤ best ∧ best ≤ requested ∧ bestLen = sizer.frameLen best ∧
        bestLen ≤ max budget 1 ∧ ∀ r, best < r → r ≤ requested → max budget 1 < sizer.frameLen r := by
  have hrequested : min requested (sizer.payloadLen - sizer.offset) = requested := by omega
  have hfinal := frameLen_of_le hle
  generalize hcandidate : min (min (maxBase64RawLenForEncodedBudget (max budget 1 - sizer.emptyNotDoneFrameLen))
    requested) (sizer.payloadLen - sizer.offset - 1) = candidate
  -- no length above the closed form fits, and the closed form does
  have habove : ∀ r, candidate < r → r ≤ requested → max budget 1 < sizer.frameLen r := by
    intro r hlt hr
    have hlen : sizer.frameLen r = _ := frameLen_of_le (by omega)
    simp only [maxBase64RawLenForEncodedBudget, base64PaddedLen] at hcandidate hlen hfinal
    split_ifs at hlen hfinal <;> omega
  have hfits : candidate ≠ 0 → sizer.frameLen candidate ≤ max budget 1 := by
    intro hne
    have hlen : sizer.frameLen candidate = _ := frameLen_of_le (by omega)
    simp only [maxBase64RawLenForEncodedBudget, base64PaddedLen] at hcandidate hlen
    split_ifs at hlen <;> omega
  simp only [installSnapshotLargestFittingRawChunk, hrequested, hcandidate]
  rw [if_neg (by omega), if_neg (by omega)]
  by_cases hzero : candidate = 0
  · rw [if_pos hzero]
    exact fun r hr hle => habove r (by omega) hle
  · rw [if_neg hzero, if_pos (hfits hzero)]
    exact ⟨by omega, by omega, rfl, hfits hzero, habove⟩

variable {emptyDataFrameLen : Nat → Bool → Nat} {payload : List UInt8} {offset : Nat}

theorem chunkView_len (hle : offset + rawLen ≤ payload.length) :
    (chunkView payload offset rawLen).len emptyDataFrameLen =
      emptyDataFrameLen offset (decide (offset + rawLen = payload.length)) + base64PaddedLen rawLen := by
  have hlen : ((payload.drop offset).take rawLen).length = rawLen := by
    rw [List.length_take, List.length_drop]
    omega
  rw [InstallSnapshotFrameView.len, chunkView, Base64.length_encode, hlen, base64PaddedLen]

/-- The sizer computes the length of the frame that is built. -/
theorem frameLen_eq_len (hle : offset + rawLen ≤ payload.length) :
    (installSnapshotFrameSizer emptyDataFrameLen offset payload.length).frameLen rawLen =
      (chunkView payload offset rawLen).len emptyDataFrameLen := by
  rw [chunkView_len hle, frameLen_of_le hle]
  simp only [installSnapshotFrameSizer]
  by_cases hdone : offset + rawLen = payload.length <;> simp [hdone]

theorem chunkFrameWithLen_ok (hle : offset + rawLen ≤ payload.length) :
    installSnapshotChunkFrameWithLen emptyDataFrameLen payload offset rawLen
      ((chunkView payload offset rawLen).len emptyDataFrameLen) =
    .ok { body := chunkView payload offset rawLen, rawLen := rawLen,
          frameLen := (chunkView payload offset rawLen).len emptyDataFrameLen, frameClamped := false,
          done := decide (offset + rawLen = payload.length) } := by
  have hend : min (offset + rawLen) payload.length = offset + rawLen := by omega
  have hdone : decide (payload.length ≤ offset + rawLen) = decide (offset + rawLen = payload.length) :=
    decide_eq_decide.2 ⟨fun h => by omega, fun h => by omega⟩
  simp only [installSnapshotChunkFrameWithLen, hend, hdone, Nat.add_sub_cancel_left]
  rw [if_neg (by omega), if_neg (by simp [chunkView])]
  rfl

/-- A frame with `rawLen` bytes of the payload. -/
def IsChunk (emptyDataFrameLen : Nat → Bool → Nat) (payload : List UInt8) (offset rawLen : Nat)
    (frame : InstallSnapshotChunkFrame) : Prop :=
  frame.body = chunkView payload offset rawLen ∧ frame.rawLen = rawLen ∧
    frame.frameLen = (chunkView payload offset rawLen).len emptyDataFrameLen ∧
    frame.done = decide (offset + rawLen = payload.length)

/-- What is built: the chunk of the largest length that fits, or an error when none
does. -/
theorem build_cases (chunk cap : Nat) (hempty : ∀ o, emptyDataFrameLen o false = emptyDataFrameLen o true + 1)
    (hoffset : offset < payload.length) :
    (∃ frame r, buildBoundedInstallSnapshotRpc emptyDataFrameLen payload offset chunk cap = .ok frame ∧
      IsChunk emptyDataFrameLen payload offset r frame ∧ Fits emptyDataFrameLen payload offset chunk cap r ∧
      ∀ r', Fits emptyDataFrameLen payload offset chunk cap r' → r' ≤ r) ∨
    ((∃ err, buildBoundedInstallSnapshotRpc emptyDataFrameLen payload offset chunk cap = .error err) ∧
      ∀ r, ¬Fits emptyDataFrameLen payload offset chunk cap r) := by
  have hne : payload.isEmpty = false := by
    cases payload with
    | nil => simp at hoffset
    | cons _ _ => rfl
  -- even one byte makes four digits, so the floor of one byte for a frame lets nothing pass
  have hfour : ∀ {r}, 1 ≤ r → offset + r ≤ payload.length →
      ((chunkView payload offset r).len emptyDataFrameLen ≤ max cap 1 ↔
        (chunkView payload offset r).len emptyDataFrameLen ≤ cap) := by
    intro r hr hle
    rw [chunkView_len hle, base64PaddedLen]
    omega
  generalize hrequested : min (max chunk 1) (payload.length - offset) = requested
  have hpos : 0 < requested := by omega
  have hle : offset + requested ≤ payload.length := by omega
  have hframe : (installSnapshotFrameSizer emptyDataFrameLen offset payload.length).frameLen requested = _ :=
    frameLen_eq_len hle
  simp only [buildBoundedInstallSnapshotRpc, hne, Bool.false_eq_true, if_false, hrequested, Fits]
  rw [if_neg (by omega)]
  by_cases hfit : (chunkView payload offset requested).len emptyDataFrameLen ≤ max cap 1
  · rw [hframe, if_pos hfit, chunkFrameWithLen_ok hle]
    exact .inl ⟨_, requested, rfl, ⟨rfl, rfl, rfl, rfl⟩, ⟨hpos, Nat.le_refl _, (hfour hpos hle).1 hfit⟩,
      fun r' hr' => hr'.2.1⟩
  · rw [hframe, if_neg hfit, if_neg (by omega)]
    have hspec := largestFittingRawChunk_spec (installSnapshotFrameSizer emptyDataFrameLen offset payload.length)
      (max cap 1) hpos hle (hempty offset) (by rw [hframe]; omega)
    rw [show max (max cap 1) 1 = max cap 1 by omega] at hspec
    cases hlargest : installSnapshotLargestFittingRawChunk
        (installSnapshotFrameSizer emptyDataFrameLen offset payload.length) requested (max cap 1) with
    | none =>
      rw [hlargest] at hspec
      refine .inr ⟨⟨_, rfl⟩, fun r hr => ?_⟩
      have hlt := hspec r hr.1 hr.2.1
      rw [frameLen_eq_len (by omega)] at hlt
      have := (hfour hr.1 (by omega)).2 hr.2.2
      omega
    | some best =>
      obtain ⟨best, bestLen⟩ := best
      rw [hlargest] at hspec
      obtain ⟨hone, hbest, hlen, hbudget, habove⟩ := hspec
      have hle' : offset + best ≤ payload.length := by omega
      rw [frameLen_eq_len hle'] at hlen
      subst hlen
      simp only [chunkFrameWithLen_ok hle']
      refine .inl ⟨_, best, rfl, ⟨rfl, rfl, rfl, rfl⟩, ⟨hone, hbest, (hfour hone hle').1 hbudget⟩, fun r hr => ?_⟩
      by_contra hlt
      have := habove r (by omega) hr.2.1
      rw [frameLen_eq_len (by omega)] at this
      have := (hfour hr.1 (by omega)).2 hr.2.2
      omega

/-- The bytes a follower reads from the frames. -/
def sentBytes (frames : List InstallSnapshotChunkFrame) : List UInt8 :=
  frames.flatMap fun frame => (Base64.decode frame.body.data).getD []

theorem IsChunk.sentBytes_cons {frame : InstallSnapshotChunkFrame}
    (h : IsChunk emptyDataFrameLen payload offset rawLen frame) (frames : List InstallSnapshotChunkFrame) :
    sentBytes (frame :: frames) = (payload.drop offset).take rawLen ++ sentBytes frames := by
  rw [sentBytes, List.flatMap_cons, h.1, chunkView]
  simp only [Base64.decode_encode, Option.getD_some]
  rfl

/-- **The whole transfer.** From any offset the loop ends, after no more rounds than
there are bytes left; what it has sent is the rest of the payload, or, where no length
fits, the payload up to there. -/
theorem sendInstallSnapshot_ends (chunk cap : Nat)
    (hempty : ∀ o, emptyDataFrameLen o false = emptyDataFrameLen o true + 1) :
    ∀ {fuel offset : Nat}, offset < payload.length → payload.length - offset ≤ fuel →
    ∃ frames failure, sendInstallSnapshot emptyDataFrameLen payload chunk cap fuel offset = some (frames, failure) ∧
      ((failure = none ∧ sentBytes frames = payload.drop offset) ∨
        (failure ≠ none ∧ ∃ stop, offset ≤ stop ∧ stop < payload.length ∧
          sentBytes frames = (payload.drop offset).take (stop - offset) ∧
          ∀ r, ¬Fits emptyDataFrameLen payload stop chunk cap r)) := by
  intro fuel
  induction fuel with
  | zero =>
    intro offset hoffset hfuel
    omega
  | succ fuel ih =>
    intro offset hoffset hfuel
    rw [sendInstallSnapshot]
    rcases build_cases chunk cap hempty hoffset with
      ⟨frame, r, hbuild, hchunk, hfits, _⟩ | ⟨⟨err, hbuild⟩, hnone⟩
    · have hr : 1 ≤ r ∧ offset + r ≤ payload.length := by
        have := hfits.2.1
        exact ⟨hfits.1, by omega⟩
      simp only [hbuild]
      by_cases hlast : offset + r = payload.length
      · -- the last chunk
        rw [if_pos (by rw [hchunk.2.2.2]; exact decide_eq_true hlast)]
        refine ⟨_, _, rfl, .inl ⟨rfl, ?_⟩⟩
        rw [hchunk.sentBytes_cons, List.take_of_length_le (by rw [List.length_drop]; omega)]
        simp [sentBytes]
      · rw [if_neg (by rw [hchunk.2.2.2]; simpa using hlast), hchunk.2.1]
        have hdrop : payload.drop offset = (payload.drop offset).take r ++ payload.drop (offset + r) := by
          rw [← List.drop_drop, List.take_append_drop]
        obtain ⟨frames, failure, hrest, ⟨hok, hbytes⟩ | ⟨hfail, stop, hge, hlt, hbytes, hnone⟩⟩ :=
          ih (show offset + r < payload.length by omega) (by omega)
        · refine ⟨frame :: frames, failure, by rw [hrest]; rfl, .inl ⟨hok, ?_⟩⟩
          rw [hchunk.sentBytes_cons, hbytes, ← hdrop]
        · refine ⟨frame :: frames, failure, by rw [hrest]; rfl, .inr ⟨hfail, stop, by omega, hlt, ?_, hnone⟩⟩
          rw [hchunk.sentBytes_cons, hbytes]
          rw [show stop - offset = r + (stop - (offset + r)) by omega, List.take_add, List.drop_drop]
    · simp only [hbuild]
      exact ⟨_, _, rfl, .inr ⟨by simp, offset, Nat.le_refl _, hoffset, by simp [sentBytes], hnone⟩⟩

end Sizes

/-- **Chunks are maximal and complete.** At every offset inside the payload a frame is
built exactly when some length fits; it is then the one of the largest length that
does, as long as was computed, within the cap, and the last one exactly when it
reaches the end. From offset 0 the loop ends after no more rounds than there are
bytes, and has sent the payload, each byte once and in order, unless at some offset no
length fits; up to there it has. -/
theorem buildBoundedInstallSnapshotRpc_maximal (emptyDataFrameLen : Nat → Bool → Nat)
    (hempty : ∀ o, emptyDataFrameLen o false = emptyDataFrameLen o true + 1) (payload : List UInt8)
    (hpayload : payload ≠ []) (chunk cap : Nat) :
    (∀ offset < payload.length,
      ((∃ frame, buildBoundedInstallSnapshotRpc emptyDataFrameLen payload offset chunk cap = .ok frame) ↔
        ∃ r, Fits emptyDataFrameLen payload offset chunk cap r) ∧
      ∀ frame, buildBoundedInstallSnapshotRpc emptyDataFrameLen payload offset chunk cap = .ok frame →
        Fits emptyDataFrameLen payload offset chunk cap frame.rawLen ∧
        (∀ r, Fits emptyDataFrameLen payload offset chunk cap r → r ≤ frame.rawLen) ∧
        frame.body = chunkView payload offset frame.rawLen ∧
        frame.frameLen = frame.body.len emptyDataFrameLen ∧ frame.frameLen ≤ cap ∧
        (frame.done = true ↔ offset + frame.rawLen = payload.length)) ∧
    ∃ frames failure,
      sendInstallSnapshot emptyDataFrameLen payload chunk cap payload.length 0 = some (frames, failure) ∧
      ((failure = none ∧ sentBytes frames = payload) ∨
        (failure ≠ none ∧ ∃ stop < payload.length, sentBytes frames = payload.take stop ∧
          ∀ r, ¬Fits emptyDataFrameLen payload stop chunk cap r)) := by
  refine ⟨fun offset hoffset => ?_, ?_⟩
  · rcases build_cases chunk cap hempty hoffset with
      ⟨frame, r, hbuild, ⟨hbody, hraw, hlen, hdone⟩, hfits, hmax⟩ | ⟨⟨err, hbuild⟩, hnone⟩
    · refine ⟨⟨fun _ => ⟨r, hfits⟩, fun _ => ⟨frame, hbuild⟩⟩, fun frame' hframe' => ?_⟩
      rw [hbuild] at hframe'
      cases hframe'
      subst hraw
      refine ⟨hfits, hmax, hbody, by rw [hlen, hbody], by rw [hlen]; exact hfits.2.2, ?_⟩
      rw [hdone, decide_eq_true_eq]
    · refine ⟨⟨fun ⟨frame, hframe⟩ => ?_, fun ⟨r, hr⟩ => absurd hr (hnone r)⟩, fun frame hframe => ?_⟩ <;>
        exact absurd (hbuild.symm.trans hframe) (by simp)
  · have hpos : 0 < payload.length := List.length_pos_iff.2 hpayload
    obtain ⟨frames, failure, hsend, ⟨hok, hbytes⟩ | ⟨hfail, stop, _, hlt, hbytes, hnone⟩⟩ :=
      sendInstallSnapshot_ends chunk cap hempty hpos (Nat.le_refl _)
    · exact ⟨frames, failure, hsend, .inl ⟨hok, hbytes⟩⟩
    · exact ⟨frames, failure, hsend, .inr ⟨hfail, stop, hlt, hbytes, hnone⟩⟩

/-- Five bytes and room for one group of digits beside 10 bytes of JSON: three bytes
go out first. -/
theorem buildBoundedInstallSnapshotRpc_maximal_two :
    (sendInstallSnapshot (fun _ done => if done then 10 else 11) [1, 2, 3, 4, 5] 4 15 5 0).map
      (fun sent => sent.1.map (·.rawLen)) = some [3, 2] ∧
    ∃ frames failure, sendInstallSnapshot (fun _ done => if done then 10 else 11) [1, 2, 3, 4, 5] 4 15 5 0 =
      some (frames, failure) ∧ ((failure = none ∧ sentBytes frames = [1, 2, 3, 4, 5]) ∨
        (failure ≠ none ∧ ∃ stop < 5, sentBytes frames = [1, 2, 3, 4, 5].take stop ∧
          ∀ r, ¬Fits (fun _ done => if done then 10 else 11) [1, 2, 3, 4, 5] stop 4 15 r)) :=
  ⟨by decide +kernel, (buildBoundedInstallSnapshotRpc_maximal (fun _ done => if done then 10 else 11)
    (fun _ => rfl) [1, 2, 3, 4, 5] (by decide) 4 15).2⟩

end LiveMutex.Raft
