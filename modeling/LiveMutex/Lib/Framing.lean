/-
Frames in a stream that arrives in chunks.

A stream is cut behind each delimiter. A reader gathers a frame in a buffer of bounded
size, chunk by chunk, and may or may not count the delimiter against the bound.
`calls_eq_verdicts`: called again and again it yields the frames of the stream up to the
first that is too large, however the stream was cut into chunks.
-/
import Mathlib.Data.List.Basic

namespace Framing

variable {α : Type} [DecidableEq α] (d : α)

/-! ## The frames of a stream -/

/-- A stream cut behind each delimiter; what follows the last one is a frame too. -/
def frames : List α → List (List α)
  | [] => []
  | x :: xs =>
    if x = d then [x] :: frames xs
    else
      match frames xs with
      | [] => [[x]]
      | f :: fs => (x :: f) :: fs

/-- A frame without its delimiter. -/
def content (frame : List α) : List α :=
  if frame.getLast? = some d then frame.dropLast else frame

/-- What a frame counts against the bound. -/
def size (counted : Bool) (frame : List α) : Nat :=
  if counted then frame.length else (content d frame).length

inductive Read (α : Type) where
  | frame (bytes : List α)
  | eof
  | tooLarge
  deriving DecidableEq

/-- What is to be read of a list of frames. -/
def verdicts (counted : Bool) (cap : Nat) : List (List α) → List (Read α)
  | [] => [.eof]
  | f :: fs => if size d counted f ≤ cap then .frame f :: verdicts counted cap fs else [.tooLarge]

/-! ## The reader -/

inductive Taken (α : Type) where
  | more (buf : List α)
  | frame (buf rest : List α)
  | tooLarge (rest : List α)

/-- What a chunk does to the frame in the buffer. -/
def takeChunk (counted : Bool) (cap : Nat) (buf chunk : List α) : Taken α :=
  match chunk.findIdx? (· = d) with
  | some idx =>
    let take := idx + 1
    if cap < buf.length + (if counted then take else idx) then .tooLarge (chunk.drop take)
    else .frame (buf ++ chunk.take take) (chunk.drop take)
  | none =>
    if cap < buf.length + chunk.length then .tooLarge []
    else .more (buf ++ chunk)

/-- A call: what the buffer held from turn to turn, the answer and the chunks left. -/
structure Call (α : Type) where
  buffers : List (List α)
  read : Read α
  left : List (List α)

def putBack (rest : List α) (chunks : List (List α)) : List (List α) :=
  if rest = [] then chunks else rest :: chunks

/-- A reader's loop. An empty chunk is the end of the stream. -/
def readLoop (counted : Bool) (cap : Nat) : List α → List (List α) → Call α
  | buf, [] => ⟨[buf], if buf = [] then .eof else .frame buf, []⟩
  | buf, chunk :: chunks =>
    if chunk = [] then ⟨[buf], if buf = [] then .eof else .frame buf, chunks⟩
    else
      match takeChunk d counted cap buf chunk with
      | .more buf' =>
        let call := readLoop counted cap buf' chunks
        { call with buffers := buf :: call.buffers }
      | .frame buf' rest => ⟨[buf, buf'], .frame buf', putBack rest chunks⟩
      | .tooLarge rest => ⟨[buf], .tooLarge, putBack rest chunks⟩

/-- The answers of so many calls, up to the first behind which there is no more. -/
def repeated {σ ρ : Type} (call : σ → ρ × σ) (more : ρ → Bool) : Nat → σ → List ρ
  | 0, _ => []
  | n + 1, s => (call s).1 :: if more (call s).1 then repeated call more n (call s).2 else []

def Read.isFrame : Read α → Bool
  | .frame _ => true
  | .eof | .tooLarge => false

def Call.answer (call : Call α) : Read α × List (List α) := (call.read, call.left)

/-- The answers of a reader that is called again and again. -/
def calls (counted : Bool) (cap : Nat) : Nat → List (List α) → List (Read α) :=
  repeated (fun chunks => (readLoop d counted cap [] chunks).answer) Read.isFrame

theorem repeated_map {σ ρ ρ' : Type} {call : σ → ρ × σ} {call' : σ → ρ' × σ} {more : ρ → Bool} {more' : ρ' → Bool}
    (f : ρ → ρ') (hcall : ∀ s, call' s = (f (call s).1, (call s).2)) (hmore : ∀ r, more' (f r) = more r) (n : Nat)
    (s : σ) : repeated call' more' n s = (repeated call more n s).map f := by
  induction n generalizing s with
  | zero => rfl
  | succ n ih =>
    rw [repeated, repeated, hcall, List.map_cons, hmore, ih]
    split
    · rfl
    · rfl

/-! ## Facts about frames -/

variable {d} {a b : List α} {counted : Bool} {cap : Nat}

theorem frames_of_not_mem (ha : d ∉ a) (hne : a ≠ []) : frames d a = [a] := by
  induction a with
  | nil => exact absurd rfl hne
  | cons x a ih =>
    rw [List.mem_cons, not_or] at ha
    rw [frames, if_neg (Ne.symm ha.1)]
    cases a with
    | nil => rfl
    | cons y a => rw [ih ha.2 (List.cons_ne_nil y a)]

theorem frames_append_delimiter (ha : d ∉ a) : frames d (a ++ d :: b) = (a ++ [d]) :: frames d b := by
  induction a with
  | nil => rw [List.nil_append, frames, if_pos rfl, List.nil_append]
  | cons x a ih =>
    rw [List.mem_cons, not_or] at ha
    rw [List.cons_append, frames, if_neg (Ne.symm ha.1), ih ha.2, List.cons_append]

/-- Bytes without a delimiter stand at the front of the first frame. -/
theorem frames_append (ha : d ∉ a) (hne : a ≠ []) : ∃ f fs, frames d (a ++ b) = (a ++ f) :: fs := by
  by_cases h : d ∈ b
  · obtain ⟨before, behind, rfl, hbefore⟩ := List.eq_append_cons_of_mem h
    have hfront : d ∉ a ++ before := by
      rw [List.mem_append, not_or]
      exact ⟨ha, hbefore⟩
    refine ⟨before ++ [d], frames d behind, ?_⟩
    rw [← List.append_assoc, frames_append_delimiter hfront, List.append_assoc]
  · have hwhole : d ∉ a ++ b := by
      rw [List.mem_append, not_or]
      exact ⟨ha, h⟩
    exact ⟨b, [], frames_of_not_mem hwhole (List.append_ne_nil_of_left_ne_nil hne b)⟩

theorem length_le_size_append (ha : d ∉ a) (f : List α) : a.length ≤ size d counted (a ++ f) := by
  rw [size, content]
  split
  · rw [List.length_append]
    exact Nat.le_add_right ..
  · split
    next hlast =>
      have hf : f ≠ [] := by
        rintro rfl
        rw [List.append_nil] at hlast
        exact ha (List.mem_of_getLast? hlast)
      have := List.length_pos_iff.2 hf
      rw [List.length_dropLast, List.length_append]
      omega
    next =>
      rw [List.length_append]
      exact Nat.le_add_right ..

theorem size_of_not_mem (ha : d ∉ a) : size d counted a = a.length := by
  have hlast : a.getLast? ≠ some d := fun h => ha (List.mem_of_getLast? h)
  rw [size, content, if_neg hlast, ite_self]

theorem size_append_delimiter : size d counted (a ++ [d]) = a.length + (if counted then 1 else 0) := by
  rw [size, content, if_pos (List.getLast?_concat ..), List.dropLast_concat, List.length_append]
  split <;> rfl

theorem length_le_size (frame : List α) : frame.length ≤ size d counted frame + (if counted then 0 else 1) := by
  rw [size, content]
  split
  · exact Nat.le_add_right ..
  · split
    · rw [List.length_dropLast]
      omega
    · exact Nat.le_add_right ..

/-! ## A chunk, with and without a delimiter -/

theorem takeChunk_of_not_mem {buf chunk : List α} (h : d ∉ chunk) : takeChunk d counted cap buf chunk =
    if cap < buf.length + chunk.length then .tooLarge [] else .more (buf ++ chunk) := by
  have hnone : chunk.findIdx? (· = d) = none := by
    rw [List.findIdx?_eq_none_iff]
    intro x hx
    exact decide_eq_false fun hxd => h (hxd ▸ hx)
  rw [takeChunk, hnone]

theorem takeChunk_append_delimiter {buf before behind : List α} (h : d ∉ before) :
    takeChunk d counted cap buf (before ++ d :: behind) =
      if cap < size d counted (buf ++ before ++ [d]) then .tooLarge behind
      else .frame (buf ++ before ++ [d]) behind := by
  have hsome : (before ++ d :: behind).findIdx? (· = d) = some before.length := by
    have hbefore : before.findIdx? (· = d) = none := by
      rw [List.findIdx?_eq_none_iff]
      intro x hx
      exact decide_eq_false fun hxd => h (hxd ▸ hx)
    rw [List.findIdx?_append, hbefore, Option.none_or, List.findIdx?_cons, if_pos (decide_eq_true rfl)]
    rw [Option.map_some, Nat.zero_add]
  have hassoc : before ++ d :: behind = (before ++ [d]) ++ behind := by
    rw [List.append_assoc, List.singleton_append]
  have htake : (before ++ d :: behind).take (before.length + 1) = before ++ [d] := by
    rw [hassoc]
    exact List.take_left' (by rw [List.length_append, List.length_singleton])
  have hdrop : (before ++ d :: behind).drop (before.length + 1) = behind := by
    rw [hassoc]
    exact List.drop_left' (by rw [List.length_append, List.length_singleton])
  have hsize : buf.length + (if counted then before.length + 1 else before.length) =
      size d counted (buf ++ before ++ [d]) := by
    rw [size_append_delimiter, List.length_append]
    split <;> omega
  rw [takeChunk, hsome]
  simp only [htake, hdrop, hsize, List.append_assoc]

omit [DecidableEq α] in
theorem putBack_flatten (rest : List α) (chunks : List (List α)) :
    (putBack rest chunks).flatten = rest ++ chunks.flatten := by
  rw [putBack]
  split
  next h => rw [h, List.nil_append]
  next => exact List.flatten_cons

omit [DecidableEq α] in
theorem putBack_nonempty {rest : List α} {chunks : List (List α)} (h : ∀ c ∈ chunks, c ≠ []) :
    ∀ c ∈ putBack rest chunks, c ≠ [] := by
  rw [putBack]
  split
  next => exact h
  next hrest =>
    intro c hc
    rcases List.mem_cons.1 hc with rfl | hc
    · exact hrest
    · exact h c hc

/-! ## The loop -/

/-- What a call answers, in terms of the frames that are still to come. -/
structure Call.Sound (d : α) (counted : Bool) (cap : Nat) (call : Call α) (stream : List α) : Prop where
  answer : verdicts d counted cap (frames d stream) =
    match call.read with
    | .frame bytes => .frame bytes :: verdicts d counted cap (frames d call.left.flatten)
    | .eof => [.eof]
    | .tooLarge => [.tooLarge]
  nonempty : ∀ c ∈ call.left, c ≠ []
  bounded : ∀ buf ∈ call.buffers, size d counted buf ≤ cap

/-- The loop with a part of a frame in its buffer. -/
theorem readLoop_sound {buf : List α} {chunks : List (List α)} (hchunks : ∀ c ∈ chunks, c ≠ []) (hbuf : d ∉ buf)
    (hcap : buf.length ≤ cap) :
    Call.Sound d counted cap (readLoop d counted cap buf chunks) (buf ++ chunks.flatten) := by
  have hsize : size d counted buf ≤ cap := by rwa [size_of_not_mem hbuf]
  induction chunks generalizing buf with
  | nil =>
    rw [List.flatten_nil, List.append_nil, readLoop]
    refine ⟨?_, fun c hc => absurd hc List.not_mem_nil, ?_⟩
    · by_cases hnil : buf = []
      · rw [if_pos hnil, hnil]
        rfl
      · rw [if_neg hnil, frames_of_not_mem hbuf hnil, verdicts, if_pos hsize]
        rfl
    · intro b hb
      rwa [List.mem_singleton.1 hb]
  | cons chunk chunks ih =>
    have hrest : ∀ c ∈ chunks, c ≠ [] := fun c hc => hchunks c (List.mem_cons_of_mem chunk hc)
    rw [readLoop, if_neg (hchunks chunk List.mem_cons_self), List.flatten_cons]
    by_cases hmem : d ∈ chunk
    · -- the frame ends in this chunk
      obtain ⟨before, behind, rfl, hbefore⟩ := List.eq_append_cons_of_mem hmem
      have hfront : d ∉ buf ++ before := by
        rw [List.mem_append, not_or]
        exact ⟨hbuf, hbefore⟩
      have hstream : buf ++ ((before ++ d :: behind) ++ chunks.flatten) =
          (buf ++ before) ++ d :: (behind ++ chunks.flatten) := by
        simp only [List.append_assoc, List.cons_append]
      rw [hstream, takeChunk_append_delimiter hbefore]
      by_cases hlarge : cap < size d counted (buf ++ before ++ [d])
      · rw [if_pos hlarge]
        refine ⟨?_, putBack_nonempty hrest, ?_⟩
        · rw [frames_append_delimiter hfront, verdicts, if_neg (Nat.not_le.2 hlarge)]
        · intro b hb
          rwa [List.mem_singleton.1 hb]
      · rw [if_neg hlarge]
        refine ⟨?_, putBack_nonempty hrest, ?_⟩
        · rw [frames_append_delimiter hfront, verdicts, if_pos (Nat.le_of_not_lt hlarge)]
          simp only [putBack_flatten]
        · intro b hb
          rcases List.mem_cons.1 hb with rfl | hb
          · exact hsize
          · rw [List.mem_singleton.1 hb]
            exact Nat.le_of_not_lt hlarge
    · -- the whole chunk belongs to the frame
      have hfront : d ∉ buf ++ chunk := by
        rw [List.mem_append, not_or]
        exact ⟨hbuf, hmem⟩
      rw [takeChunk_of_not_mem hmem, ← List.append_assoc]
      by_cases hlarge : cap < buf.length + chunk.length
      · rw [if_pos hlarge]
        refine ⟨?_, hrest, ?_⟩
        · -- the first frame starts with what has been read of it
          have hne : buf ++ chunk ≠ [] := List.append_ne_nil_of_right_ne_nil buf (hchunks chunk List.mem_cons_self)
          obtain ⟨f, fs, hfs⟩ := frames_append (b := chunks.flatten) hfront hne
          have hlong : cap < size d counted (buf ++ chunk ++ f) := by
            have : (buf ++ chunk).length ≤ size d counted (buf ++ chunk ++ f) := length_le_size_append hfront f
            rw [List.length_append] at this
            omega
          rw [hfs, verdicts, if_neg (Nat.not_le.2 hlong)]
        · intro b hb
          rwa [List.mem_singleton.1 hb]
      · rw [if_neg hlarge]
        have hnext : (buf ++ chunk).length ≤ cap := by
          rw [List.length_append]
          exact Nat.le_of_not_lt hlarge
        have hcall := ih hrest hfront hnext (by rwa [size_of_not_mem hfront])
        refine ⟨hcall.answer, hcall.nonempty, ?_⟩
        intro b hb
        rcases List.mem_cons.1 hb with rfl | hb
        · exact hsize
        · exact hcall.bounded b hb

/-- **A reader yields the frames of the stream**, those up to the first that is too large,
in whatever chunks the stream arrives. -/
theorem calls_eq_verdicts (n : Nat) {chunks : List (List α)} (hchunks : ∀ c ∈ chunks, c ≠ []) :
    calls d counted cap n chunks = (verdicts d counted cap (frames d chunks.flatten)).take n := by
  induction n generalizing chunks with
  | zero => rw [List.take_zero, calls, repeated]
  | succ n ih =>
    have hcall : Call.Sound d counted cap (readLoop d counted cap [] chunks) ([] ++ chunks.flatten) :=
      readLoop_sound hchunks List.not_mem_nil (Nat.zero_le cap)
    have hanswer := hcall.answer
    have hlater := ih hcall.nonempty
    rw [List.nil_append] at hanswer
    rw [calls, repeated, hanswer]
    rw [calls] at hlater
    cases hread : (readLoop d counted cap [] chunks).read with
    | frame bytes =>
      simp only [Call.answer, hread, Read.isFrame, if_true, List.take_succ_cons]
      rw [← hlater]
      rfl
    | eof => simp [Call.answer, hread, Read.isFrame]
    | tooLarge => simp [Call.answer, hread, Read.isFrame]

end Framing
