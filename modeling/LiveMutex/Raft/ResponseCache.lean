/-
The client response cache of a node: which requests with an identity it has
applied, and what it answered, so that a retry is not applied twice.

A leader reserves a request's id when it admits it, a node marks it when it applies
the entry, and the response is put in when the broker sends it. The cache is
bounded: beyond its limit the oldest entry that has its response is forgotten.
-/
import LiveMutex.Answer
import LiveMutex.Raft.Store

namespace LiveMutex.Raft

/-- What identifies a client's request across retries. -/
structure RequestIdentity where
  requestId : String
  requestFingerprint : String
  deriving Repr, DecidableEq

structure CachedClientResponse where
  requestFingerprint : String
  applied : Bool
  response : Option Response
  deriving DecidableEq

structure ClientResponseCacheState where
  entries : OrdMap String CachedClientResponse := ∅
  /-- ids, the oldest first -/
  order : List String := []

structure ClientResponseSnapshotEntry where
  requestId : String
  requestFingerprint : String
  response : Option Response
  deriving DecidableEq

/-- The response cache's limit, `client_response_cache_max_entries.max(1)`. -/
def cacheLimit (maxEntries : Nat) : Nat := max maxEntries 1

/-- `validate_snapshot_client_response_entries`, behind the fingerprints read so far. -/
def validateSnapshotClientResponseEntries :
    OrdMap String String → List ClientResponseSnapshotEntry → Except BrokerRaftError (OrdMap String String)
  | fingerprints, [] => .ok fingerprints
  | fingerprints, entry :: entries =>
    if entry.requestId = "" || entry.requestFingerprint = "" then
      .error (.invalidLog "snapshot client response entry has empty request id or fingerprint")
    else if let some response := entry.response.filter (·.correlationUuid ≠ entry.requestId) then
      .error (.invalidLog
        s!"snapshot client response entry `{entry.requestId}` carries response correlation uuid `{response.correlationUuid}`")
    else if fingerprints.contains entry.requestId then
      .error (.invalidLog s!"snapshot client response entry duplicates request id `{entry.requestId}`")
    else validateSnapshotClientResponseEntries (fingerprints.insert entry.requestId entry.requestFingerprint) entries

/-- What happens to a cache beside the applying of entries. -/
inductive ResponseEvent where
  | reserve (identity : RequestIdentity)
  | release (identity : RequestIdentity)
  | observe (response : Response)
  | remember (identity : RequestIdentity) (response : Response)

namespace ClientResponseCacheState

variable (cache : ClientResponseCacheState) (limit : Nat)

/-! ## Trimming -/

/-- A reservation, and a request whose response has not been seen, stay. -/
def evictable (requestId : String) : Bool :=
  cache.entries[requestId]?.all fun cached => cached.applied && cached.response.isSome

/-- The loop of `trim_client_response_cache`; every turn takes an id off the order. -/
def trimTurns : Nat → ClientResponseCacheState → ClientResponseCacheState
  | 0, cache => cache
  | turns + 1, cache =>
    if cache.entries.size ≤ limit then cache
    else
      match cache.order.findIdx? cache.evictable with
      | none => cache
      | some evictPos =>
        match cache.order[evictPos]? with
        | none => cache
        | some oldest =>
          trimTurns turns { entries := cache.entries.erase oldest, order := cache.order.eraseIdx evictPos }

/-- `trim_client_response_cache` -/
def trim : ClientResponseCacheState := trimTurns limit cache.order.length cache

/-- A new entry at the back of the order. -/
def push (requestId : String) (cached : CachedClientResponse) : ClientResponseCacheState :=
  trim { entries := cache.entries.insert requestId cached, order := cache.order ++ [requestId] } limit

/-! ## Requests -/

/-- `begin_client_request_apply`: whether the request is to be applied. -/
def beginClientRequestApply (identity : RequestIdentity) :
    Except BrokerRaftError (Bool × ClientResponseCacheState) :=
  match cache.entries[identity.requestId]? with
  | some cached =>
    if cached.requestFingerprint ≠ identity.requestFingerprint then
      .error (.idempotencyKeyConflict identity.requestId)
    else if cached.applied then .ok (false, cache)
    else .ok (true, { cache with entries := cache.entries.insert identity.requestId { cached with applied := true } })
  | none => .ok (true, cache.push limit identity.requestId ⟨identity.requestFingerprint, true, none⟩)

/-- `reserve_client_request_id`: whether the id was free. -/
def reserveClientRequestId (identity : RequestIdentity) :
    Except BrokerRaftError (Bool × ClientResponseCacheState) :=
  match cache.entries[identity.requestId]? with
  | some cached =>
    if cached.requestFingerprint ≠ identity.requestFingerprint then
      .error (.idempotencyKeyConflict identity.requestId)
    else .ok (false, cache)
  | none => .ok (true, cache.push limit identity.requestId ⟨identity.requestFingerprint, false, none⟩)

/-- `release_unapplied_client_request_id` -/
def releaseUnappliedClientRequestId (identity : RequestIdentity) : ClientResponseCacheState :=
  if cache.entries[identity.requestId]?.any fun cached =>
      !cached.applied && cached.requestFingerprint = identity.requestFingerprint then
    { entries := cache.entries.erase identity.requestId
      order := cache.order.filter (· ≠ identity.requestId) }
  else cache

/-! ## Responses -/

/-- `remember_client_response` -/
def rememberClientResponse (identity : RequestIdentity) (response : Response) : ClientResponseCacheState :=
  let order :=
    if cache.entries.contains identity.requestId then cache.order.filter (· ≠ identity.requestId) else cache.order
  push { cache with order } limit identity.requestId ⟨identity.requestFingerprint, true, some response⟩

/-- `observe_client_response_cache`, on every response the broker sends. -/
def observe (response : Response) : ClientResponseCacheState :=
  let requestId := response.correlationUuid
  match cache.entries[requestId]? with
  | some cached =>
    { entries := cache.entries.insert requestId { cached with applied := true, response := some response }
      order := cache.order.filter (· ≠ requestId) ++ [requestId] }
  | none => cache

/-! ## Beside the applying of entries -/

def handle : ResponseEvent → ClientResponseCacheState
  | .reserve identity =>
    match cache.reserveClientRequestId limit identity with
    | .error _ => cache
    | .ok (_, cache) => cache
  | .release identity => cache.releaseUnappliedClientRequestId identity
  | .observe response => cache.observe response
  | .remember identity response => cache.rememberClientResponse limit identity response

/-- The id is there, or goes in without pushing another one out. -/
def hasRoom (requestId : String) : Bool := cache.entries.contains requestId || cache.entries.size < limit

/-- There is room for an id that is reserved, and a response goes to one that was
applied. -/
def roomFor : ResponseEvent → Bool
  | .reserve identity => cache.hasRoom limit identity.requestId
  | .release _ => true
  | .observe response => cache.entries[response.correlationUuid]?.all (·.applied)
  | .remember identity _ => cache.entries[identity.requestId]?.any (·.applied)

/-! ## Snapshots -/

/-- `client_response_snapshot_entries` -/
def clientResponseSnapshotEntries : List ClientResponseSnapshotEntry :=
  cache.order.filterMap fun requestId =>
    (cache.entries[requestId]?.filter (·.applied)).map fun cached =>
      ⟨requestId, cached.requestFingerprint, cached.response⟩

/-- `restore_client_response_cache` -/
def restoreClientResponseCache (entries : List ClientResponseSnapshotEntry) :
    Except BrokerRaftError ClientResponseCacheState :=
  (validateSnapshotClientResponseEntries ∅ entries).map fun _ =>
    entries.foldl
      (fun cache entry => cache.push limit entry.requestId ⟨entry.requestFingerprint, true, entry.response⟩) {}

end ClientResponseCacheState

end LiveMutex.Raft
