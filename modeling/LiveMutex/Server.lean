/-
One connection of the stream server, from its bytes to what it asks of the
broker: `read_frame_bounded` cuts the stream into frames, and the loop of
`handle_stream` answers each of them, behind the authentication gate when a
token is configured.

A connection reads nothing of the broker but its own client id, so what it
does is a function of what it receives: a list of `ConnEvent`s, interleaved
with those of the other connections at the broker. What it receives is the
list of the buffers the transport hands over, cut in whatever way; the parser
of requests is a parameter.
-/
import LiveMutex.Protocol

namespace LiveMutex

/-! ## Frames -/

/-- What a wait for the transport ends with: some bytes (none at the end of
the stream), an error, or the handshake deadline, when one is running. -/
inductive Fill where
  | chunk (bytes : List UInt8)
  | failed
  | elapsed
  deriving DecidableEq

/-- The buffered reader: bytes it has read ahead, and what is still to come. -/
structure FrameReader where
  buffered : List UInt8
  fills : List Fill

/-- `read_frame_bounded`, as its caller sees it. -/
inductive FrameRead where
  | frame (buf : List UInt8)
  | eof
  | tooLarge
  | failed
  | elapsed
  /-- the read still waits for the transport -/
  | waiting
  deriving DecidableEq

/-- `b'\n'` -/
def newline : UInt8 := 10

/-- `b'\r'` -/
def carriageReturn : UInt8 := 13

/-- What a chunk does to the frame being read: it stays open, or it ends and
the rest of the chunk is left in the reader. -/
inductive ChunkRead where
  | more (buf : List UInt8)
  | done (result : FrameRead) (rest : List UInt8)

/-- One turn of the loop of `read_frame_bounded`, on a chunk that is not empty. -/
def readChunk (maxBytes : Nat) (buf chunk : List UInt8) : ChunkRead :=
  match chunk.findIdx? (· = newline) with
  | some idx =>
    let take := idx + 1
    if buf.length + take > maxBytes then .done .tooLarge (chunk.drop take)
    else .done (.frame (buf ++ chunk.take take)) (chunk.drop take)
  | none =>
    if buf.length + chunk.length > maxBytes then .done .tooLarge []
    else .more (buf ++ chunk)

/-- The loop once the reader's own buffer is used up; `deadline` says that the
read runs against the handshake deadline. -/
def readFills (maxBytes : Nat) (deadline : Bool) : List UInt8 → List Fill → FrameRead × FrameReader
  | _, [] => (.waiting, ⟨[], []⟩)
  | _, .failed :: fills => (.failed, ⟨[], fills⟩)
  | buf, .elapsed :: fills =>
    if deadline then (.elapsed, ⟨[], fills⟩) else readFills maxBytes deadline buf fills
  | buf, .chunk [] :: fills => if buf = [] then (.eof, ⟨[], fills⟩) else (.frame buf, ⟨[], fills⟩)
  | buf, .chunk chunk :: fills =>
    match readChunk maxBytes buf chunk with
    | .more buf => readFills maxBytes deadline buf fills
    | .done result rest => (result, ⟨rest, fills⟩)

/-- `read_frame_bounded` -/
def FrameReader.readFrameBounded (r : FrameReader) (maxBytes : Nat) (deadline : Bool) :
    FrameRead × FrameReader :=
  if r.buffered = [] then readFills maxBytes deadline [] r.fills
  else
    match readChunk maxBytes [] r.buffered with
    | .more buf => readFills maxBytes deadline buf r.fills
    | .done result rest => (result, ⟨rest, r.fills⟩)

/-- The payload of a frame: the newline at its end and any carriage return
before it are cut off. -/
def trimFrame (buf : List UInt8) : List UInt8 :=
  (buf.reverse.dropWhile fun b => b = newline || b = carriageReturn).reverse

/-! ## The connection -/

/-- What the server reads of its configuration. -/
structure ServerConfig where
  authToken : Option String
  /-- `max_frame_bytes` -/
  frameCap : Nat
  /-- `auth_handshake_timeout` is set -/
  handshakeTimeout : Bool

/-- What a connection does, in order. -/
inductive ConnEvent where
  | registerClient
  /-- a frame with a payload is taken up -/
  | frame (payload : List UInt8)
  /-- `Broker::handle_request` -/
  | handleRequest (request : Request)
  /-- `Broker::try_send` -/
  | trySend (response : Response)
  | frameTooLarge
  | deadlineExceeded
  /-- `Broker::drop_client` -/
  | dropClient
  deriving DecidableEq

structure Conn where
  authed : Bool
  reader : FrameReader

/-- How a turn of the loop ends: with another turn, at `break` or `return
Err`, or in a read that still waits. -/
inductive Turn where
  | next (conn : Conn)
  | exit (failed : Bool)
  | waiting

section

variable (cfg : ServerConfig) (parse : List UInt8 → Except String Request)

/-- A request of a peer that has not authenticated itself. -/
def Conn.admitRequest (conn : Conn) (request : Request) : List ConnEvent × Turn :=
  match request with
  | .version uuid value => ([.handleRequest (.version uuid value)], .next conn)
  | .auth uuid token =>
    if some token = cfg.authToken then ([.trySend (.auth uuid true none)], .next { conn with authed := true })
    else ([.trySend (.auth uuid false (some "invalid auth token"))], .exit false)
  | _ => ([.trySend (.error "unauth" "auth handshake required")], .exit false)

/-- The loop's body once a payload is there. -/
def Conn.take (conn : Conn) (payload : List UInt8) : List ConnEvent × Turn :=
  match parse payload with
  | .error err => ([.trySend (.error "malformed" ("malformed request: " ++ err))], .next conn)
  | .ok request =>
    if conn.authed then ([.handleRequest request], .next conn) else conn.admitRequest cfg request

/-- One turn of the loop of `handle_stream`. -/
def Conn.turn (conn : Conn) : List ConnEvent × Turn :=
  let read := conn.reader.readFrameBounded cfg.frameCap (cfg.handshakeTimeout && !conn.authed)
  match read.1 with
  | .waiting => ([], .waiting)
  | .elapsed => ([.deadlineExceeded], .exit false)
  | .tooLarge =>
    ([.frameTooLarge, .trySend (.error "frame-too-large" s!"frame exceeds {cfg.frameCap} bytes")], .exit false)
  | .failed => ([], .exit true)
  | .eof => ([], .exit false)
  | .frame buf =>
    let conn := { conn with reader := read.2 }
    let payload := trimFrame buf
    if payload = [] then ([], .next conn)
    else
      let taken := conn.take cfg parse payload
      (.frame payload :: taken.1, taken.2)

/-- The loop and what comes after it, for so many turns; the second component
is what `handle_stream` returns (whether it failed), none while it runs. -/
def Conn.serve : Nat → Conn → List ConnEvent × Option Bool
  | 0, _ => ([], none)
  | turns + 1, conn =>
    match conn.turn cfg parse with
    | (events, .next conn) =>
      let later := serve turns conn
      (events ++ later.1, later.2)
    | (events, .exit failed) => (events ++ [.dropClient], some failed)
    | (events, .waiting) => (events, none)

end

/-- What is left to read, an end of the stream counted as something. -/
def Fill.weight : Fill → Nat
  | .chunk bytes => bytes.length + 1
  | .failed | .elapsed => 1

def FrameReader.weight (r : FrameReader) : Nat := r.buffered.length + (r.fills.map Fill.weight).sum

/-- `handle_stream` on what the connection receives; `slot` says whether it is
below the connection cap. -/
def handleStream (cfg : ServerConfig) (parse : List UInt8 → Except String Request) (slot : Bool)
    (fills : List Fill) : List ConnEvent × Option Bool :=
  if !slot then ([], some false)
  else
    let conn : Conn := ⟨cfg.authToken.isNone, ⟨[], fills⟩⟩
    let served := conn.serve cfg parse (conn.reader.weight + 1)
    (.registerClient :: served.1, served.2)

end LiveMutex
