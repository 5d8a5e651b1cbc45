/-
The authentication gate of a connection: what it may do at each point is told
by an automaton of three phases (`Phase`), and every run of the connection
loop is one the automaton accepts. What a reader wants to know of the gate
follows from the automaton alone.
-/
import Mathlib.Data.List.Induction
import LiveMutex.Server

namespace LiveMutex

/-- Not authenticated, authenticated, and past the last frame. -/
inductive Phase where
  | closed
  | opened
  | ended
  deriving DecidableEq

section

variable (parse : List UInt8 → Except String Request) (token : String)

/-- The frame carries the token. -/
def Unlocks (payload : List UInt8) : Prop := ∃ uuid, parse payload = .ok (.auth uuid token)

/-- The phase a frame of a peer that is not authenticated leads to. -/
def Phase.ofRequest : Except String Request → Phase
  | .error _ => .closed
  | .ok (.version _ _) => .closed
  | .ok (.auth _ t) => if t = token then .opened else .ended
  | .ok _ => .ended

def Phase.next : Phase → ConnEvent → Phase
  | .closed, .frame payload => .ofRequest token (parse payload)
  | _, .frameTooLarge => .ended
  | _, .deadlineExceeded => .ended
  | p, _ => p

end

/-- `Version` -/
def Request.IsVersion : Request → Prop
  | .version _ _ => True
  | _ => False

/-- What may happen in a phase. -/
def Phase.Allows : Phase → ConnEvent → Prop
  | .closed, .handleRequest request => request.IsVersion
  | .ended, .handleRequest _ => False
  | .ended, .frame _ => False
  | _, _ => True

section

variable (parse : List UInt8 → Except String Request) (token : String)

/-- The phase after some events. -/
def Phase.after (p : Phase) (events : List ConnEvent) : Phase := events.foldl (Phase.next parse token) p

/-- Every event is allowed in the phase it happens in. -/
def Phase.Accepts : Phase → List ConnEvent → Prop
  | _, [] => True
  | p, e :: events => p.Allows e ∧ Accepts (p.next parse token e) events

end

namespace Phase

variable {parse : List UInt8 → Except String Request} {token : String} {p : Phase}

theorem accepts_append {events later : List ConnEvent} : p.Accepts parse token (events ++ later) ↔
    p.Accepts parse token events ∧ (p.after parse token events).Accepts parse token later := by
  induction events generalizing p with
  | nil => simp [Accepts, after]
  | cons e events ih => simp only [List.cons_append, Accepts, ih, after, List.foldl_cons, and_assoc]

theorem after_append (events later : List ConnEvent) :
    p.after parse token (events ++ later) = (p.after parse token events).after parse token later :=
  List.foldl_append ..

/-- An event is allowed in the phase after those before it. -/
theorem Accepts.allows {pre post : List ConnEvent} {e : ConnEvent} (h : p.Accepts parse token (pre ++ e :: post)) :
    (p.after parse token pre).Allows e :=
  (accepts_append.1 h).2.1

theorem next_ended (e : ConnEvent) : Phase.ended.next parse token e = .ended := by
  cases e <;> rfl

theorem after_ended (events : List ConnEvent) : Phase.ended.after parse token events = .ended := by
  induction events with
  | nil => rfl
  | cons e events ih => rw [after, List.foldl_cons, next_ended]; exact ih

/-- Nothing is taken up once the last frame is past. -/
theorem Accepts.ended {events : List ConnEvent} (h : Phase.ended.Accepts parse token events) {e : ConnEvent}
    (he : e ∈ events) : Phase.ended.Allows e := by
  obtain ⟨pre, post, rfl⟩ := List.append_of_mem he
  have := h.allows
  rwa [after_ended] at this

theorem ofRequest_opened {parsed : Except String Request} (h : Phase.ofRequest token parsed = .opened) :
    ∃ uuid, parsed = .ok (.auth uuid token) := by
  unfold ofRequest at h
  split at h
  · cases h
  · cases h
  · rename_i uuid t
    split at h
    · rename_i ht
      exact ⟨uuid, by rw [ht]⟩
    · cases h
  · cases h

/-- The gate opens at a frame with the token only. -/
theorem after_opened {events : List ConnEvent} (h : Phase.closed.after parse token events = .opened) :
    ∃ payload, .frame payload ∈ events ∧ Unlocks parse token payload := by
  induction events using List.reverseRecOn with
  | nil => cases h
  | append_singleton events e ih =>
    rw [after_append] at h
    generalize hp : Phase.closed.after parse token events = p at h
    have hnext : p.next parse token e = .opened := h
    cases p with
    | opened =>
      obtain ⟨payload, hmem, hun⟩ := ih hp
      exact ⟨payload, List.mem_append_left _ hmem, hun⟩
    | ended => rw [next_ended] at hnext; cases hnext
    | closed =>
      cases e with
      | frame payload => exact ⟨payload, by simp, ofRequest_opened hnext⟩
      | _ => cases hnext

end Phase

/-! ## The loop keeps to the automaton -/

section

variable {cfg : ServerConfig} {parse : List UInt8 → Except String Request} {token : String}

/-- The phase of a connection whose loop runs. -/
def Conn.phase (conn : Conn) : Phase := if conn.authed then .opened else .closed

/-- How the events of one turn lead from phase to phase. -/
structure Turn.Gated (parse : List UInt8 → Except String Request) (token : String) (p : Phase)
    (events : List ConnEvent) (turn : Turn) : Prop where
  accepts : p.Accepts parse token events
  next : ∀ conn, turn = .next conn → p.after parse token events = conn.phase

/-- A frame and one event more, from phase `p` to phase `p'`. -/
theorem Turn.Gated.frame {p p' : Phase} {payload : List UInt8} {e : ConnEvent} {turn : Turn}
    (hframe : p.Allows (.frame payload)) (hnext : p.next parse token (.frame payload) = p') (he : p'.Allows e)
    (hstay : p'.next parse token e = p') (hturn : ∀ conn, turn = .next conn → p' = conn.phase) :
    Turn.Gated parse token p [.frame payload, e] turn where
  accepts := ⟨hframe, hnext ▸ he, trivial⟩
  next conn h := by
    show (p.next parse token (.frame payload)).next parse token e = conn.phase
    rw [hnext, hstay, hturn conn h]

theorem Conn.take_gated (hcfg : cfg.authToken = some token) (conn : Conn) (payload : List UInt8) :
    Turn.Gated parse token conn.phase (.frame payload :: (conn.take cfg parse payload).1)
      (conn.take cfg parse payload).2 := by
  have hsame : ∀ conn', Turn.next conn = .next conn' → conn.phase = conn'.phase := by
    intro conn' h
    rw [Turn.next.inj h]
  cases hauthed : conn.authed with
  | true =>
    have hp : conn.phase = .opened := by simp [Conn.phase, hauthed]
    rw [hp] at hsame ⊢
    cases hparse : parse payload with
    | error err =>
      simp only [Conn.take, hparse]
      exact .frame trivial rfl trivial rfl hsame
    | ok request =>
      simp only [Conn.take, hparse, hauthed, if_true]
      exact .frame trivial rfl trivial rfl hsame
  | false =>
    have hp : conn.phase = .closed := by simp [Conn.phase, hauthed]
    have hnext : Phase.closed.next parse token (.frame payload) = .ofRequest token (parse payload) := rfl
    rw [hp] at hsame ⊢
    cases hparse : parse payload with
    | error err =>
      rw [hparse] at hnext
      simp only [Conn.take, hparse]
      exact .frame trivial hnext trivial rfl hsame
    | ok request =>
      rw [hparse] at hnext
      simp only [Conn.take, hparse, hauthed, Bool.false_eq_true, if_false]
      cases request with
      | version uuid value => exact .frame trivial hnext trivial rfl hsame
      | auth uuid t =>
        by_cases ht : t = token
        · have hopen : Phase.closed.next parse token (.frame payload) = .opened := hnext.trans (if_pos ht)
          simp only [Conn.admitRequest, hcfg, ht, if_true]
          refine .frame trivial hopen trivial rfl fun conn' h => ?_
          obtain rfl := Turn.next.inj h
          rfl
        · have hended : Phase.closed.next parse token (.frame payload) = .ended := hnext.trans (if_neg ht)
          have hne : ¬some t = some token := fun h => ht (Option.some.inj h)
          simp only [Conn.admitRequest, hcfg, if_neg hne]
          exact .frame trivial hended trivial rfl fun conn' h => by cases h
      | _ => exact .frame trivial hnext trivial rfl fun conn' h => by cases h

/-- One turn of the loop. -/
theorem Conn.turn_gated (hcfg : cfg.authToken = some token) (conn : Conn) :
    Turn.Gated parse token conn.phase (conn.turn cfg parse).1 (conn.turn cfg parse).2 := by
  have hended : ∀ p : Phase, p.Accepts parse token [.deadlineExceeded] ∧
      ∀ r, p.Accepts parse token [.frameTooLarge, .trySend r] := by
    intro p
    cases p <;> exact ⟨⟨trivial, trivial⟩, fun r => ⟨trivial, trivial, trivial⟩⟩
  unfold Conn.turn
  dsimp only
  split
  · exact ⟨trivial, fun conn' h => by cases h⟩
  · exact ⟨(hended _).1, fun conn' h => by cases h⟩
  · exact ⟨(hended _).2 _, fun conn' h => by cases h⟩
  · exact ⟨trivial, fun conn' h => by cases h⟩
  · exact ⟨trivial, fun conn' h => by cases h⟩
  · split
    · refine ⟨trivial, fun conn' h => ?_⟩
      obtain rfl := Turn.next.inj h
      rfl
    · exact Conn.take_gated hcfg
        ⟨conn.authed, (conn.reader.readFrameBounded cfg.frameCap (cfg.handshakeTimeout && !conn.authed)).2⟩ _

/-- The whole loop: every run is accepted from the phase it starts in. -/
theorem Conn.serve_accepts (hcfg : cfg.authToken = some token) :
    ∀ (turns : Nat) (conn : Conn), conn.phase.Accepts parse token (conn.serve cfg parse turns).1
  | 0, _ => trivial
  | turns + 1, conn => by
    have hturn : Turn.Gated parse token _ _ _ := Conn.turn_gated hcfg conn
    unfold Conn.serve
    split
    · rename_i events conn' h
      rw [h] at hturn
      refine Phase.accepts_append.2 ⟨hturn.accepts, ?_⟩
      rw [hturn.next conn' rfl]
      exact Conn.serve_accepts hcfg turns conn'
    · rename_i events failed h
      rw [h] at hturn
      refine Phase.accepts_append.2 ⟨hturn.accepts, ?_, trivial⟩
      cases (conn.phase.after parse token events) <;> exact trivial
    · rename_i events h
      rw [h] at hturn
      exact hturn.accepts

end

/-! ## The client is dropped once -/

section

variable {cfg : ServerConfig} {parse : List UInt8 → Except String Request}

/-- Neither a registration nor a drop. -/
def ConnEvent.Inside : ConnEvent → Prop
  | .registerClient | .dropClient => False
  | _ => True

theorem Conn.take_inside (conn : Conn) (payload : List UInt8) :
    ∀ e ∈ (conn.take cfg parse payload).1, e.Inside := by
  unfold Conn.take
  split
  · simp [ConnEvent.Inside]
  · split
    · simp [ConnEvent.Inside]
    · unfold Conn.admitRequest
      split
      · simp [ConnEvent.Inside]
      · split <;> simp [ConnEvent.Inside]
      · simp [ConnEvent.Inside]

theorem Conn.turn_inside (conn : Conn) : ∀ e ∈ (conn.turn cfg parse).1, e.Inside := by
  unfold Conn.turn
  dsimp only
  split
  · simp
  · simp [ConnEvent.Inside]
  · simp [ConnEvent.Inside]
  · simp
  · simp
  · split
    · simp
    · intro e he
      rcases List.mem_cons.1 he with rfl | he
      · trivial
      · exact Conn.take_inside _ _ e he

/-- The loop drops the client when it ends, and not before. -/
theorem Conn.serve_drops : ∀ (turns : Nat) (conn : Conn), ∃ inside : List ConnEvent, (∀ e ∈ inside, e.Inside) ∧
    (conn.serve cfg parse turns).1 =
      inside ++ if (conn.serve cfg parse turns).2.isSome then [.dropClient] else []
  | 0, _ => ⟨[], by simp, rfl⟩
  | turns + 1, conn => by
    have hturn : ∀ e ∈ (conn.turn cfg parse).1, e.Inside := conn.turn_inside
    unfold Conn.serve
    split
    · rename_i events conn' h
      rw [h] at hturn
      obtain ⟨inside, hinside, heq⟩ := Conn.serve_drops turns conn'
      refine ⟨events ++ inside, fun e he => (List.mem_append.1 he).elim (hturn e) (hinside e), ?_⟩
      rw [List.append_assoc, ← heq]
    · rename_i events failed h
      rw [h] at hturn
      exact ⟨events, hturn, rfl⟩
    · rename_i events h
      rw [h] at hturn
      exact ⟨events, hturn, (List.append_nil _).symm⟩

/-! ## The loop has turns enough -/

theorem readChunk_weight {maxBytes : Nat} {buf chunk rest : List UInt8} {result : FrameRead} (hne : chunk ≠ [])
    (h : readChunk maxBytes buf chunk = .done result rest) : rest.length < chunk.length := by
  have hpos : 0 < chunk.length := List.length_pos_iff.2 hne
  unfold readChunk at h
  dsimp only at h
  split at h
  · split at h <;> obtain ⟨-, rfl⟩ := ChunkRead.done.inj h <;> rw [List.length_drop] <;> omega
  · split at h
    · obtain ⟨-, rfl⟩ := ChunkRead.done.inj h
      exact hpos
    · cases h

/-- A frame uses up something of what is left to read. -/
theorem readFills_weight {maxBytes : Nat} {deadline : Bool} {frame : List UInt8} {r : FrameReader} :
    ∀ {fills : List Fill} {buf : List UInt8}, readFills maxBytes deadline buf fills = (.frame frame, r) →
      r.weight < (fills.map Fill.weight).sum
  | [], _, h => by cases h
  | .failed :: fills, _, h => by cases h
  | .elapsed :: fills, buf, h => by
    unfold readFills at h
    split at h
    · cases h
    · have ih := readFills_weight h
      simp only [List.map_cons, List.sum_cons, Fill.weight]
      omega
  | .chunk [] :: fills, buf, h => by
    unfold readFills at h
    split at h
    · cases h
    · obtain ⟨-, rfl⟩ := Prod.mk.inj h
      simp [FrameReader.weight, Fill.weight]
  | .chunk (b :: bytes) :: fills, buf, h => by
    unfold readFills at h
    simp only [List.map_cons, List.sum_cons, Fill.weight]
    split at h
    · have ih := readFills_weight h
      omega
    · rename_i result rest hread
      obtain ⟨-, rfl⟩ := Prod.mk.inj h
      have := readChunk_weight (by simp) hread
      simp only [FrameReader.weight]
      omega

/-- A frame fits the cap. -/
theorem readChunk_length {maxBytes : Nat} {buf chunk frame rest : List UInt8}
    (h : readChunk maxBytes buf chunk = .done (.frame frame) rest) : frame.length ≤ maxBytes := by
  unfold readChunk at h
  dsimp only at h
  split at h
  · split at h
    · cases h
    · obtain ⟨hframe, -⟩ := ChunkRead.done.inj h
      obtain rfl := FrameRead.frame.inj hframe
      rw [List.length_append, List.length_take]
      omega
  · split at h <;> cases h

theorem readChunk_more {maxBytes : Nat} {buf chunk buf' : List UInt8} (h : readChunk maxBytes buf chunk = .more buf') :
    buf'.length ≤ maxBytes := by
  unfold readChunk at h
  dsimp only at h
  split at h
  · split at h <;> cases h
  · split at h
    · cases h
    · obtain rfl := ChunkRead.more.inj h
      rw [List.length_append]
      omega

theorem readFills_length {maxBytes : Nat} {deadline : Bool} {frame : List UInt8} {r : FrameReader} :
    ∀ {fills : List Fill} {buf : List UInt8}, buf.length ≤ maxBytes →
      readFills maxBytes deadline buf fills = (.frame frame, r) → frame.length ≤ maxBytes
  | [], _, _, h => by cases h
  | .failed :: fills, _, _, h => by cases h
  | .elapsed :: fills, buf, hbuf, h => by
    unfold readFills at h
    split at h
    · cases h
    · exact readFills_length hbuf h
  | .chunk [] :: fills, buf, hbuf, h => by
    unfold readFills at h
    split at h
    · cases h
    · obtain ⟨hframe, -⟩ := Prod.mk.inj h
      obtain rfl := FrameRead.frame.inj hframe
      exact hbuf
  | .chunk (b :: bytes) :: fills, buf, hbuf, h => by
    unfold readFills at h
    split at h
    · rename_i hmore
      exact readFills_length (readChunk_more hmore) h
    · rename_i hread
      obtain ⟨rfl, -⟩ := Prod.mk.inj h
      exact readChunk_length hread

theorem FrameReader.readFrameBounded_length {r r' : FrameReader} {maxBytes : Nat} {deadline : Bool}
    {frame : List UInt8} (h : r.readFrameBounded maxBytes deadline = (.frame frame, r')) :
    frame.length ≤ maxBytes := by
  unfold FrameReader.readFrameBounded at h
  split at h
  · exact readFills_length (Nat.zero_le _) h
  · split at h
    · rename_i hmore
      exact readFills_length (readChunk_more hmore) h
    · rename_i hread
      obtain ⟨rfl, -⟩ := Prod.mk.inj h
      exact readChunk_length hread

theorem FrameReader.readFrameBounded_weight {r r' : FrameReader} {maxBytes : Nat} {deadline : Bool}
    {frame : List UInt8} (h : r.readFrameBounded maxBytes deadline = (.frame frame, r')) : r'.weight < r.weight := by
  unfold FrameReader.readFrameBounded at h
  split at h
  · rename_i hnil
    have := readFills_weight h
    simp only [FrameReader.weight, hnil, List.length_nil] at this ⊢
    omega
  · rename_i hne
    split at h
    · have := readFills_weight h
      simp only [FrameReader.weight] at this ⊢
      omega
    · rename_i result rest hread
      obtain ⟨-, rfl⟩ := Prod.mk.inj h
      have := readChunk_weight hne hread
      simp only [FrameReader.weight]
      omega

theorem Conn.admitRequest_next {conn conn' : Conn} {request : Request} (h : (conn.admitRequest cfg request).2 = .next conn') :
    conn'.reader = conn.reader := by
  unfold Conn.admitRequest at h
  split at h
  · rw [Turn.next.inj h]
  · split at h
    · rw [← Turn.next.inj h]
    · cases h
  · cases h

theorem Conn.take_next {conn conn' : Conn} {payload : List UInt8}
    (h : (conn.take cfg parse payload).2 = .next conn') : conn'.reader = conn.reader := by
  unfold Conn.take at h
  split at h
  · rw [Turn.next.inj h]
  · split at h
    · rw [Turn.next.inj h]
    · exact Conn.admitRequest_next h

theorem Conn.turn_next {conn conn' : Conn} {events : List ConnEvent}
    (h : conn.turn cfg parse = (events, .next conn')) : conn'.reader.weight < conn.reader.weight := by
  unfold Conn.turn at h
  dsimp only at h
  split at h
  case h_6 buf hread =>
    have hweight := FrameReader.readFrameBounded_weight (Prod.ext hread rfl)
    split at h
    · rw [← Turn.next.inj (Prod.mk.inj h).2]
      exact hweight
    · rw [Conn.take_next (Prod.mk.inj h).2]
      exact hweight
  all_goals cases (Prod.mk.inj h).2

/-- What the loop comes to, however many turns it takes: its last turn exits, or
is in a read that waits. -/
inductive Conn.Finishes (cfg : ServerConfig) (parse : List UInt8 → Except String Request) :
    Conn → List ConnEvent × Option Bool → Prop
  | next {conn conn' : Conn} {events : List ConnEvent} {later : List ConnEvent × Option Bool}
      (hturn : conn.turn cfg parse = (events, .next conn')) (h : Finishes cfg parse conn' later) :
      Finishes cfg parse conn (events ++ later.1, later.2)
  | exit {conn : Conn} {events : List ConnEvent} {failed : Bool}
      (hturn : conn.turn cfg parse = (events, .exit failed)) :
      Finishes cfg parse conn (events ++ [.dropClient], some failed)
  | waiting {conn : Conn} {events : List ConnEvent} (hturn : conn.turn cfg parse = (events, .waiting)) :
      Finishes cfg parse conn (events, none)

/-- The loop exits or waits, and a number of turns above what is left to read is
enough for it. -/
theorem Conn.serve_turns (conn : Conn) :
    ∃ result, conn.Finishes cfg parse result ∧
      ∀ turns, conn.reader.weight < turns → conn.serve cfg parse turns = result := by
  match hturn : conn.turn cfg parse with
  | (events, .next conn') =>
    have hless := Conn.turn_next hturn
    obtain ⟨later, hlater, hserve⟩ := Conn.serve_turns conn'
    refine ⟨_, .next hturn hlater, fun turns h => ?_⟩
    obtain ⟨turns, rfl⟩ : ∃ t, turns = t + 1 := ⟨turns - 1, by omega⟩
    simp only [Conn.serve, hturn, hserve turns (by omega)]
  | (events, .exit failed) =>
    refine ⟨_, .exit hturn, fun turns h => ?_⟩
    obtain ⟨turns, rfl⟩ : ∃ t, turns = t + 1 := ⟨turns - 1, by omega⟩
    simp only [Conn.serve, hturn]
  | (events, .waiting) =>
    refine ⟨_, .waiting hturn, fun turns h => ?_⟩
    obtain ⟨turns, rfl⟩ : ∃ t, turns = t + 1 := ⟨turns - 1, by omega⟩
    simp only [Conn.serve, hturn]
termination_by conn.reader.weight

theorem Conn.turn_frame {conn : Conn} {payload : List UInt8} (h : .frame payload ∈ (conn.turn cfg parse).1) :
    payload.length ≤ cfg.frameCap := by
  have htake : ∀ (conn : Conn) (payload' : List UInt8), .frame payload ∉ (conn.take cfg parse payload').1 := by
    intro conn payload'
    unfold Conn.take
    split
    · simp
    · split
      · simp
      · unfold Conn.admitRequest
        split
        · simp
        · split <;> simp
        · simp
  unfold Conn.turn at h
  dsimp only at h
  split at h
  case h_6 buf hread =>
    have hlen := FrameReader.readFrameBounded_length (Prod.ext hread rfl)
    split at h
    · cases h
    · rcases List.mem_cons.1 h with h | h
      · obtain rfl := ConnEvent.frame.inj h
        refine Nat.le_trans ?_ hlen
        have hdrop := (List.dropWhile_sublist (l := buf.reverse) fun b => b = newline || b = carriageReturn).length_le
        simpa [trimFrame] using hdrop
      · exact absurd h (htake _ _)
  all_goals simp at h

theorem Conn.serve_frame {payload : List UInt8} : ∀ {turns : Nat} {conn : Conn},
    .frame payload ∈ (conn.serve cfg parse turns).1 → payload.length ≤ cfg.frameCap
  | 0, _, h => by cases h
  | turns + 1, conn, h => by
    have hturn : .frame payload ∈ (conn.turn cfg parse).1 → payload.length ≤ cfg.frameCap := Conn.turn_frame
    unfold Conn.serve at h
    split at h
    · rename_i heq
      rw [heq] at hturn
      exact (List.mem_append.1 h).elim hturn Conn.serve_frame
    · rename_i heq
      rw [heq] at hturn
      exact (List.mem_append.1 h).elim hturn fun h => by simp at h
    · rename_i heq
      rw [heq] at hturn
      exact hturn h

end

/-! ## The gate -/

section

variable (parse : List UInt8 → Except String Request) (token : String)

/-- The peer has authenticated itself in these events. -/
def Authenticated (events : List ConnEvent) : Prop := ∃ payload, .frame payload ∈ events ∧ Unlocks parse token payload

/-- After the events `pre` this one is the last the connection takes up: a
frame over the cap, a missed deadline, or, while the peer has not
authenticated itself, a request that is neither a version nor the token. -/
def Ends (pre : List ConnEvent) (e : ConnEvent) : Prop :=
  e = .frameTooLarge ∨ e = .deadlineExceeded ∨
  ∃ payload request, e = .frame payload ∧ parse payload = .ok request ∧ ¬request.IsVersion ∧
    ¬Unlocks parse token payload ∧ ¬Authenticated parse token pre

end

/-- **The authentication gate**: with a token configured, whatever a
connection receives and however it is cut into reads,

* the only requests that reach the broker before a frame with exactly that
  token are versions;
* after a wrong token or any other request of a peer that has not
  authenticated itself, a frame over the cap or a missed handshake deadline,
  no frame is taken up and no request reaches the broker;
* no frame over the cap is taken up;
* a registered client is dropped once on every way out, last of all, and not
  before. -/
theorem handleStream_gate (cfg : ServerConfig) {token : String} (hcfg : cfg.authToken = some token)
    (parse : List UInt8 → Except String Request) (slot : Bool) (fills : List Fill) :
    (∀ pre request post, (handleStream cfg parse slot fills).1 = pre ++ .handleRequest request :: post →
      request.IsVersion ∨ Authenticated parse token pre) ∧
    (∀ pre e post, (handleStream cfg parse slot fills).1 = pre ++ e :: post → Ends parse token pre e →
      (∀ payload, .frame payload ∉ post) ∧ ∀ request, .handleRequest request ∉ post) ∧
    (∀ payload, .frame payload ∈ (handleStream cfg parse slot fills).1 → payload.length ≤ cfg.frameCap) ∧
    (.registerClient ∈ (handleStream cfg parse slot fills).1 →
      ∃ inside : List ConnEvent, (∀ e ∈ inside, e.Inside) ∧ (handleStream cfg parse slot fills).1 =
        .registerClient :: inside ++ if (handleStream cfg parse slot fills).2.isSome then [.dropClient] else []) := by
  cases slot with
  | false => simp [handleStream]
  | true =>
    let conn : Conn := ⟨cfg.authToken.isNone, ⟨[], fills⟩⟩
    have hphase : conn.phase = .closed := by simp [conn, Conn.phase, hcfg]
    have hserve : Phase.Accepts parse token _ _ := Conn.serve_accepts hcfg (conn.reader.weight + 1) conn
    rw [hphase] at hserve
    have haccepts : Phase.closed.Accepts parse token (handleStream cfg parse true fills).1 := ⟨trivial, hserve⟩
    refine ⟨fun pre request post h => ?_, fun pre e post h hends => ?_, fun payload h => ?_, fun _ => ?_⟩
    · rw [h] at haccepts
      have hallows := haccepts.allows
      cases hp : Phase.closed.after parse token pre with
      | closed =>
        rw [hp] at hallows
        exact .inl hallows
      | opened => exact .inr (Phase.after_opened hp)
      | ended =>
        rw [hp] at hallows
        exact hallows.elim
    · rw [h] at haccepts
      -- the event leads to the last phase
      have hended : (Phase.closed.after parse token pre).next parse token e = .ended := by
        have hallows := haccepts.allows
        rcases hends with rfl | rfl | ⟨payload, request, rfl, hparse, hversion, htoken, hauth⟩
        · cases Phase.closed.after parse token pre <;> rfl
        · cases Phase.closed.after parse token pre <;> rfl
        · cases hp : Phase.closed.after parse token pre with
          | opened => exact absurd (Phase.after_opened hp) hauth
          | ended => rfl
          | closed =>
            show Phase.ofRequest token (parse payload) = .ended
            rw [hparse]
            cases request with
            | version uuid value => exact absurd trivial hversion
            | auth uuid t => exact if_neg fun ht => htoken ⟨uuid, by rw [hparse, ht]⟩
            | _ => rfl
      have hpost := (Phase.accepts_append.1 haccepts).2.2
      rw [hended] at hpost
      exact ⟨fun payload hmem => hpost.ended hmem, fun request hmem => hpost.ended hmem⟩
    · rcases List.mem_cons.1 h with h | h
      · cases h
      · exact Conn.serve_frame h
    · obtain ⟨inside, hinside, heq⟩ := Conn.serve_drops (conn.reader.weight + 1) conn
      exact ⟨inside, hinside, congrArg (ConnEvent.registerClient :: ·) heq⟩

/-- Requests of one letter: a version, the token, and a list of the keys. -/
def letterRequest (payload : List UInt8) : Except String Request :=
  if payload = [118] then .ok (.version "v" "0.1.0")
  else if payload = [97] then .ok (.auth "a" "secret")
  else if payload = [108] then .ok (.ls "l")
  else .error "letter"

/-- A version, the token and a list request, in three reads cut across the
frames: the list request reaches the broker behind the token. -/
theorem handleStream_gate_letters :
    (handleStream ⟨some "secret", 16, true⟩ letterRequest true
      [.chunk [118, 10, 97], .chunk [13, 10, 108], .chunk [10], .chunk []]).1 =
      [.registerClient, .frame [118], .handleRequest (.version "v" "0.1.0"), .frame [97],
        .trySend (.auth "a" true none), .frame [108], .handleRequest (.ls "l"), .dropClient] ∧
    Authenticated letterRequest "secret"
      [.registerClient, .frame [118], .handleRequest (.version "v" "0.1.0"), .frame [97],
        .trySend (.auth "a" true none), .frame [108]] := by
  have hevents : (handleStream ⟨some "secret", 16, true⟩ letterRequest true
      [.chunk [118, 10, 97], .chunk [13, 10, 108], .chunk [10], .chunk []]).1 =
      [.registerClient, .frame [118], .handleRequest (.version "v" "0.1.0"), .frame [97],
        .trySend (.auth "a" true none), .frame [108], .handleRequest (.ls "l"), .dropClient] := by
    decide +kernel
  have hgate := (handleStream_gate ⟨some "secret", 16, true⟩ rfl letterRequest true
    [.chunk [118, 10, 97], .chunk [13, 10, 108], .chunk [10], .chunk []]).1
  exact ⟨hevents, (hgate _ (.ls "l") [.dropClient] hevents).resolve_left id⟩

end LiveMutex
