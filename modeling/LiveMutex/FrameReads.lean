/-
The three readers of newline-delimited frames: the server's `read_frame_bounded`, the
client's `read_response_frame_bounded` and `read_raft_frame_bounded` between brokers. They
are one loop; the first two count the newline against the cap and the third does not.

`readers_independent_of_chunks`: each yields the frames of the stream, up to the first that
is too large, whatever chunks `fill_buf` hands over, and keeps its buffer within the cap.
`FrameReader.readFrameBounded_eq` ties the server's reader on a connection to this one.
-/
import LiveMutex.Lib.Framing
import LiveMutex.Server

namespace LiveMutex

open Framing (Read frames verdicts repeated)

/-- What `fill_buf` hands over, one chunk a time. -/
abbrev Chunks := List (List UInt8)

inductive FrameError where
  /-- `InvalidData`: a frame longer than the cap -/
  | tooLarge (message : String)
  /-- `UnexpectedEof` -/
  | unexpectedEof (message : String)
  /-- `InvalidData`: a frame that is not text -/
  | notUtf8 (message : String)
  deriving Repr, DecidableEq

/-- A call: what its buffer held from turn to turn, what it returns and what it leaves. -/
structure FrameCall (ρ : Type) where
  buffers : List (List UInt8)
  answer : Except FrameError ρ
  left : Chunks

/-! ## The readers -/

/-- The frame is in the buffer (`Ok(true)`), or there is none any more (`Ok(false)`). -/
def boundedAnswer (what : String) (maxBytes : Nat) : Read UInt8 → Except FrameError (Option (List UInt8))
  | .frame buf => .ok (some buf)
  | .eof => .ok none
  | .tooLarge => .error (.tooLarge s!"{what} exceeds {maxBytes} bytes")

def readBounded (what : String) (maxBytes : Nat) (chunks : Chunks) : FrameCall (Option (List UInt8)) :=
  let call := Framing.readLoop newline true maxBytes [] chunks
  { buffers := call.buffers, answer := boundedAnswer what maxBytes call.read, left := call.left }

/-- `server.rs` -/
def readFrameBounded (maxBytes : Nat) (chunks : Chunks) : FrameCall (Option (List UInt8)) :=
  readBounded "frame" maxBytes chunks

/-- `client.rs` -/
def readResponseFrameBounded (maxBytes : Nat) (chunks : Chunks) : FrameCall (Option (List UInt8)) :=
  readBounded "response frame" maxBytes chunks

/-- A frame without its newline and a carriage return before that. -/
def stripRaftFrame (buf : List UInt8) : List UInt8 :=
  if buf.getLast? = some newline then
    let buf := buf.dropLast
    if buf.getLast? = some carriageReturn then buf.dropLast else buf
  else buf

section

variable (utf8Error : List UInt8 → String)

/-- The text of a frame; how bytes that are none are described is a parameter. -/
def raftAnswer (maxBytes : Nat) : Read UInt8 → Except FrameError String
  | .frame buf =>
    match String.fromUTF8? ⟨(stripRaftFrame buf).toArray⟩ with
    | some text => .ok text
    | none => .error (.notUtf8 ("raft RPC frame is not valid UTF-8: " ++ utf8Error (stripRaftFrame buf)))
  | .eof => .error (.unexpectedEof "raft RPC frame ended before any bytes were read")
  | .tooLarge => .error (.tooLarge s!"raft RPC frame exceeds {maxBytes} bytes")

/-- `broker_raft.rs` -/
def readRaftFrameBounded (maxBytes : Nat) (chunks : Chunks) : FrameCall String :=
  let call := Framing.readLoop newline false maxBytes [] chunks
  { buffers := call.buffers, answer := raftAnswer utf8Error maxBytes call.read, left := call.left }

end

/-! ## Repeated calls -/

/-- The stream goes on behind a frame, text or not. -/
def goesOn : Except FrameError (Option (List UInt8)) → Bool
  | .ok frame => frame.isSome
  | .error _ => false

def raftGoesOn : Except FrameError String → Bool
  | .ok _ => true
  | .error (.notUtf8 _) => true
  | .error _ => false

/-- The answers of a reader called so many times, until the stream or the reading ends. -/
def answers {ρ : Type} (read : Chunks → FrameCall ρ) (more : Except FrameError ρ → Bool) (n : Nat) (chunks : Chunks) :
    List (Except FrameError ρ) :=
  repeated (fun chunks => ((read chunks).answer, (read chunks).left)) more n chunks

/-- A stream in one piece. -/
def unsplit (stream : List UInt8) : Chunks := Framing.putBack stream []

/-- A reader that yields the frames of the stream, however it arrives; `verdict` says how it
reports a frame, the end and a frame that is too large. -/
structure ReadsFrames {ρ : Type} (read : Chunks → FrameCall ρ) (more : Except FrameError ρ → Bool)
    (verdict : Read UInt8 → Except FrameError ρ) (counted : Bool) (maxBytes : Nat) : Prop where
  frames : ∀ chunks, (∀ c ∈ chunks, c ≠ []) → ∀ n, answers read more n chunks =
    ((verdicts newline counted maxBytes (frames newline chunks.flatten)).take n).map verdict
  unsplit : ∀ chunks, (∀ c ∈ chunks, c ≠ []) → ∀ n,
    answers read more n chunks = answers read more n (unsplit chunks.flatten)
  bounded : ∀ chunks, (∀ c ∈ chunks, c ≠ []) → ∀ buf ∈ (read chunks).buffers,
    Framing.size newline counted buf ≤ maxBytes ∧ buf.length ≤ maxBytes + (if counted then 0 else 1)

/-- A reader made of the common loop. -/
theorem readsFrames_of_readLoop {ρ : Type} {read : Chunks → FrameCall ρ} {more : Except FrameError ρ → Bool}
    {verdict : Read UInt8 → Except FrameError ρ} {counted : Bool} {maxBytes : Nat}
    (hread : ∀ chunks, read chunks =
      { buffers := (Framing.readLoop newline counted maxBytes [] chunks).buffers
        answer := verdict (Framing.readLoop newline counted maxBytes [] chunks).read
        left := (Framing.readLoop newline counted maxBytes [] chunks).left })
    (hmore : ∀ r, more (verdict r) = r.isFrame) : ReadsFrames read more verdict counted maxBytes := by
  have hanswers : ∀ n chunks, answers read more n chunks =
      (Framing.calls newline counted maxBytes n chunks).map verdict := by
    intro n chunks
    refine Framing.repeated_map verdict (fun chunks => ?_) hmore n chunks
    rw [hread]
    rfl
  have hframes : ∀ chunks, (∀ c ∈ chunks, c ≠ []) → ∀ n, answers read more n chunks =
      ((verdicts newline counted maxBytes (frames newline chunks.flatten)).take n).map verdict := by
    intro chunks hchunks n
    rw [hanswers, Framing.calls_eq_verdicts n hchunks]
  refine ⟨hframes, ?_, ?_⟩
  · intro chunks hchunks n
    have hwhole : ∀ c ∈ unsplit chunks.flatten, c ≠ [] :=
      Framing.putBack_nonempty fun c hc => absurd hc List.not_mem_nil
    have hflatten : (unsplit chunks.flatten).flatten = chunks.flatten := by
      rw [unsplit, Framing.putBack_flatten, List.flatten_nil, List.append_nil]
    rw [hframes chunks hchunks, hframes _ hwhole, hflatten]
  · intro chunks hchunks buf hbuf
    rw [hread] at hbuf
    have hsize := (Framing.readLoop_sound hchunks List.not_mem_nil (Nat.zero_le maxBytes)).bounded buf hbuf
    have hlength : buf.length ≤ Framing.size newline counted buf + (if counted then 0 else 1) :=
      Framing.length_le_size buf
    exact ⟨hsize, by omega⟩

/-- **Frames do not depend on how the bytes arrive.** For every stream, every way it is cut
into chunks and every cap each reader yields the frames of the stream and ends as on the
stream in one piece, with an error at the first frame longer than the cap, where the server
and the client count its newline and the brokers do not; and no buffer exceeds the cap. -/
theorem readers_independent_of_chunks (utf8Error : List UInt8 → String) (maxBytes : Nat) :
    ReadsFrames (readFrameBounded maxBytes) goesOn (boundedAnswer "frame" maxBytes) true maxBytes ∧
    ReadsFrames (readResponseFrameBounded maxBytes) goesOn (boundedAnswer "response frame" maxBytes) true maxBytes ∧
    ReadsFrames (readRaftFrameBounded utf8Error maxBytes) raftGoesOn (raftAnswer utf8Error maxBytes) false
      maxBytes := by
  have hbounded : ∀ what r, goesOn (boundedAnswer what maxBytes r) = r.isFrame := by
    intro what r
    cases r with
    | frame buf => rfl
    | eof => rfl
    | tooLarge => rfl
  have hraft : ∀ r, raftGoesOn (raftAnswer utf8Error maxBytes r) = r.isFrame := by
    intro r
    cases r with
    | frame buf =>
      rw [raftAnswer]
      split
      · rfl
      · rfl
    | eof => rfl
    | tooLarge => rfl
  exact ⟨readsFrames_of_readLoop (fun _ => rfl) (hbounded _), readsFrames_of_readLoop (fun _ => rfl) (hbounded _),
    readsFrames_of_readLoop (fun _ => rfl) hraft⟩

/-- Three bytes under a cap of three, and the newline in the next chunk. -/
example : answers (readFrameBounded 3) goesOn 2 [[97, 97, 97], [10]] = [.error (.tooLarge "frame exceeds 3 bytes")] ∧
    Framing.calls newline false 3 2 [[97, 97, 97], [10]] = [.frame [97, 97, 97, 10], .eof] :=
  ⟨rfl, by decide⟩

/-! ## A connection's reader -/

/-- How a connection sees what the reader returns. -/
def FrameRead.ofAnswer : Except FrameError (Option (List UInt8)) → FrameRead
  | .ok (some buf) => .frame buf
  | .ok none => .eof
  | .error _ => .tooLarge

namespace FrameReader

/-- The reader still gets these chunks, and then the end of the stream so many times. -/
def Delivers (r : FrameReader) (chunks : Chunks) (ends : Nat) : Prop :=
  ∃ later : Chunks, (∀ c ∈ later, c ≠ []) ∧ chunks = Framing.putBack r.buffered later ∧
    r.fills = later.map Fill.chunk ++ List.replicate ends (.chunk [])

theorem readChunk_eq (maxBytes : Nat) (buf chunk : List UInt8) : readChunk maxBytes buf chunk =
    match Framing.takeChunk newline true maxBytes buf chunk with
    | .more buf => .more buf
    | .frame buf rest => .done (.frame buf) rest
    | .tooLarge rest => .done .tooLarge rest := by
  rw [readChunk, Framing.takeChunk]
  cases chunk.findIdx? (· = newline) with
  | none =>
    simp only [gt_iff_lt]
    split
    · rfl
    · rfl
  | some idx =>
    simp only [gt_iff_lt, if_true]
    split
    · rfl
    · rfl

variable {maxBytes ends : Nat} {deadline : Bool}

/-- A chunk ends the frame, or the loop goes on behind it. -/
theorem readFills_chunk {buf chunk : List UInt8} {fills : List Fill} (hne : chunk ≠ []) :
    readFills maxBytes deadline buf (.chunk chunk :: fills) =
      match Framing.takeChunk newline true maxBytes buf chunk with
      | .more buf => readFills maxBytes deadline buf fills
      | .frame buf rest => (.frame buf, ⟨rest, fills⟩)
      | .tooLarge rest => (.tooLarge, ⟨rest, fills⟩) := by
  obtain ⟨x, xs, rfl⟩ := List.exists_cons_of_ne_nil hne
  rw [readFills, readChunk_eq]
  · cases Framing.takeChunk newline true maxBytes buf (x :: xs) with
    | more buf => rfl
    | frame buf rest => rfl
    | tooLarge rest => rfl
  · exact hne

theorem readFills_eq (buf : List UInt8) {later : Chunks} (hlater : ∀ c ∈ later, c ≠ []) :
    ∃ r ends', readFills maxBytes deadline buf (later.map Fill.chunk ++ List.replicate (ends + 1) (.chunk [])) =
        (.ofAnswer (boundedAnswer "frame" maxBytes (Framing.readLoop newline true maxBytes buf later).read), r) ∧
      r.Delivers (Framing.readLoop newline true maxBytes buf later).left ends' ∧ ends ≤ ends' := by
  induction later generalizing buf with
  | nil =>
    refine ⟨⟨[], List.replicate ends (.chunk [])⟩, ends, ?_, ⟨[], hlater, rfl, rfl⟩, Nat.le_refl ends⟩
    rw [List.map_nil, List.nil_append, List.replicate_succ, readFills, Framing.readLoop]
    split
    · rfl
    · rfl
  | cons chunk later ih =>
    have hne := hlater chunk List.mem_cons_self
    have hlater : ∀ c ∈ later, c ≠ [] := fun c hc => hlater c (List.mem_cons_of_mem chunk hc)
    rw [List.map_cons, List.cons_append, readFills_chunk hne, Framing.readLoop, if_neg hne]
    cases Framing.takeChunk newline true maxBytes buf chunk with
    | more buf => exact ih buf hlater
    | frame buf rest => exact ⟨_, ends + 1, rfl, ⟨later, hlater, rfl, rfl⟩, Nat.le_succ ends⟩
    | tooLarge rest => exact ⟨_, ends + 1, rfl, ⟨later, hlater, rfl, rfl⟩, Nat.le_succ ends⟩

/-- **A connection reads as the stream is read**: where nothing fails and no deadline passes,
a call on the connection's reader answers as one on the chunks it gets, and leaves the
reader with the chunks that call leaves. -/
theorem readFrameBounded_eq {r : FrameReader} {chunks : Chunks} (h : r.Delivers chunks (ends + 1)) :
    ∃ r' ends', r.readFrameBounded maxBytes deadline =
        (.ofAnswer (LiveMutex.readFrameBounded maxBytes chunks).answer, r') ∧
      r'.Delivers (LiveMutex.readFrameBounded maxBytes chunks).left ends' ∧ ends ≤ ends' := by
  obtain ⟨later, hlater, rfl, hfills⟩ := h
  simp only [LiveMutex.readFrameBounded, readBounded]
  rw [FrameReader.readFrameBounded, hfills, Framing.putBack]
  by_cases hnil : r.buffered = []
  · rw [if_pos hnil, if_pos hnil]
    exact readFills_eq [] hlater
  · rw [if_neg hnil, if_neg hnil, readChunk_eq, Framing.readLoop, if_neg hnil]
    cases Framing.takeChunk newline true maxBytes [] r.buffered with
    | more buf => exact readFills_eq buf hlater
    | frame buf rest => exact ⟨_, ends + 1, rfl, ⟨later, hlater, rfl, rfl⟩, Nat.le_succ ends⟩
    | tooLarge rest => exact ⟨_, ends + 1, rfl, ⟨later, hlater, rfl, rfl⟩, Nat.le_succ ends⟩

/-- A frame in two chunks. -/
theorem readFrameBounded_eq_split : ∃ r' ends',
    FrameReader.readFrameBounded ⟨[], [.chunk [97], .chunk [10], .chunk []]⟩ 3 false = (.frame [97, 10], r') ∧
      r'.Delivers [] ends' ∧ 0 ≤ ends' :=
  readFrameBounded_eq ⟨[[97], [10]], by decide, rfl, rfl⟩

end FrameReader

end LiveMutex
