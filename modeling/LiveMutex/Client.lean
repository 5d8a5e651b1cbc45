/-
The client: what its acquire calls send to the broker, how they read the
answers that come back, and the checks the public facade puts on a grant
before the application sees it. A call is a function of the responses that
reach it before its timeout, in the order of their arrival.
-/
import LiveMutex.Answer

namespace LiveMutex

/-- `MAX_FENCING_TOKEN` -/
def maxFencingToken : Nat := 9007199254740991

inductive ClientError where
  | broker (message : String)
  /-- `Broker` with the debug text of a response the call has no use for -/
  | unexpected (response : Response)
  | timeout
  | closed
  | invalid (message : String)
  deriving DecidableEq

structure LockGuard where
  keys : List String
  lockUuid : String
  fencingToken : Option Nat
  fencingTokens : OrdMap String Nat
  deriving DecidableEq

namespace LockGuard

def single (key lockUuid : String) (fencingToken : Option Nat) : LockGuard :=
  { keys := [key], lockUuid, fencingToken
    fencingTokens :=
      match fencingToken with
      | some t => (∅ : OrdMap String Nat).insert key t
      | none => ∅ }

def composite (keys : List String) (lockUuid : String) (fencingTokens : OrdMap String Nat) : LockGuard :=
  { keys, lockUuid, fencingToken := none, fencingTokens }

end LockGuard

/-! ## The raw client -/

/-- The guard a granting response is turned into. -/
def Response.guard : Response → Option LockGuard
  | .lock _ key true _ (some lockUuid) fencingToken _ _ => some (.single key lockUuid fencingToken)
  | .compositeLock _ keys true (some lockUuid) fencingTokens _ =>
    some (.composite keys lockUuid (fencingTokens.getD ∅))
  | _ => none

/-- `wait_for_acquire` on the responses it receives; `ended` is what `recv`
fails with after the last of them, `Closed` or `Timeout`. -/
def waitForAcquire (ended : ClientError) : List Response → Except ClientError LockGuard
  | [] => .error ended
  | resp :: rest =>
    match resp.guard with
    | some guard => .ok guard
    | none =>
      match resp with
      | .error _ error => .error (.broker error)
      -- an answer `acquired: false`, and whatever else comes, is waited past
      | _ => waitForAcquire ended rest

/-- The end of `try_acquire_internal`: the first response decides. -/
def tryAcquireAnswer (ended : ClientError) : List Response → Except ClientError (Option LockGuard)
  | [] => .error ended
  | resp :: _ =>
    match resp.guard with
    | some guard => .ok (some guard)
    | none =>
      match resp with
      | .lock _ _ false .. | .compositeLock _ _ false .. => .ok none
      | .error _ error => .error (.broker error)
      | other => .error (.unexpected other)

/-! ## The facade -/

def validToken (token : Nat) : Bool := 1 ≤ token && token ≤ maxFencingToken

def invalid (message : String) : ClientError := .invalid ("invalid fenced authority from broker: " ++ message)

/-- The loop over the keys of a composite grant; `unique` are the keys seen. -/
def validateKeys (tokens : OrdMap String Nat) : List String → List String → Except ClientError Unit
  | _, [] => .ok ()
  | unique, key :: keys =>
    if key ∈ unique then .error (invalid s!"composite grant repeated key {key.quote}")
    else
      match tokens[key]? with
      | none => .error (invalid s!"composite grant omitted token for key {key.quote}")
      | some token =>
        if !validToken token then
          .error (invalid s!"composite token for {key.quote} outside 1..={maxFencingToken}")
        else validateKeys tokens (key :: unique) keys

def validateGuard (guard : LockGuard) : Except ClientError Unit :=
  match guard.keys with
  | [] => .error (invalid "grant contained no protected keys")
  | first :: rest =>
    if guard.lockUuid = "" then .error (invalid "grant omitted lock_uuid")
    else if rest = [] then
      match guard.fencingToken with
      | none => .error (invalid "single-key grant omitted fencing_token")
      | some token =>
        if !validToken token then
          .error (invalid s!"single-key fencing token {token} outside 1..={maxFencingToken}")
        else if guard.fencingTokens.size ≠ 1 ∨ guard.fencingTokens[first]? ≠ some token then
          .error (invalid "single-key grant token map does not exactly match fencing_token")
        else .ok ()
    else if guard.fencingToken.isSome then
      .error (invalid "composite grant exposed an ambiguous scalar fencing_token")
    else if guard.fencingTokens.size ≠ guard.keys.length then
      .error (invalid "composite grant token/key cardinality mismatch")
    else validateKeys guard.fencingTokens [] guard.keys

/-- The acquire calls of the public `Client`. -/
inductive Call where
  | acquire (key : String)
  | acquireWithMax (key : String) (max : Nat)
  | acquireComposite (keys : List String)
  | tryAcquire (key : String)
  | tryAcquireComposite (keys : List String)
  deriving DecidableEq

namespace Call

/-- The lock request of `acquire_internal` and `try_acquire_internal`. -/
def lockRequest (uuid : String) (pid : Int) (ttl : Nat) (key : Option String) (keys : Option (List String))
    (max : Option Nat) (wait : Bool) : Request :=
  .lock uuid key keys (some pid) (some ttl) max false 0 false (some wait)

/-- What a composite call asks for, when its list of keys is one the client
takes. -/
def compositeRequest (uuid : String) (pid : Int) (ttl : Nat) (keys : List String) (wait : Bool) :
    Except ClientError Request :=
  if keys.isEmpty || keys.length > maxCompositeKeys then
    .error (.invalid s!"composite acquire requires 1..={maxCompositeKeys} keys")
  else .ok (lockRequest uuid pid ttl none (some keys) none wait)

/-- The request a call writes to the broker, or the error it returns before
it writes anything. -/
def request (uuid : String) (pid : Int) (ttl : Nat) : Call → Except ClientError Request
  | .acquire key => .ok (lockRequest uuid pid ttl (some key) none none true)
  | .acquireWithMax key max =>
    if max = 0 then
      .error (.invalid "acquire_with_max requires max >= 1; use acquire() for default semantics")
    else .ok (lockRequest uuid pid ttl (some key) none (some max) true)
  | .acquireComposite keys => compositeRequest uuid pid ttl keys true
  | .tryAcquire key => .ok (lockRequest uuid pid ttl (some key) none none false)
  | .tryAcquireComposite keys => compositeRequest uuid pid ttl keys false

/-- What the raw client makes of the responses. -/
def raw (ended : ClientError) (responses : List Response) : Call → Except ClientError (Option LockGuard)
  | .acquire _ | .acquireWithMax _ _ | .acquireComposite _ => (waitForAcquire ended responses).map some
  | .tryAcquire _ | .tryAcquireComposite _ => tryAcquireAnswer ended responses

/-- What the call returns to the application, once its request is written. -/
def returns (call : Call) (ended : ClientError) (responses : List Response) :
    Except ClientError (Option LockGuard) := do
  match ← call.raw ended responses with
  | none => .ok none
  | some guard =>
    validateGuard guard
    .ok (some guard)

end Call

/-- The responses under a request's uuid that the broker delivered to a
client, first one first. -/
def Broker.received (b : Broker) (client : ClientId) (uuid : String) : List Response :=
  ((b.sent.filter fun s => s.delivered && s.client = client && s.response.correlationUuid = uuid).map
    Sent.response).reverse

/-- The client's end of a connection: how long the frame of a response is, its
newline counted, and `max_response_frame_bytes`. -/
structure ResponseReader where
  frameBytes : Response → Nat
  frameCap : Nat := 1024 * 1024

/-- What the reader task of a client hands to the call under `uuid`, of the
responses that come in. At a frame over the cap it stops, and tells the calls that
are under way. -/
def ResponseReader.route (reader : ResponseReader) (uuid : String) : List Response → List Response
  | [] => []
  | resp :: rest =>
    if reader.frameBytes resp > reader.frameCap then [.error uuid "broker connection closed"]
    else if resp.correlationUuid = uuid then resp :: reader.route uuid rest
    else reader.route uuid rest

/-- What a call under `uuid` is given of what the broker delivered to its client. -/
def Broker.routed (b : Broker) (reader : ResponseReader) (client : ClientId) (uuid : String) : List Response :=
  reader.route uuid ((b.sent.filter fun s => s.delivered && s.client = client).map Sent.response).reverse

/-- The response says that the lock was acquired. -/
def Response.acquired : Response → Bool
  | .lock _ _ acquired .. => acquired
  | .compositeLock _ _ acquired .. => acquired
  | _ => false

/-- The fencing tokens a response carries. -/
def Response.fencingTokens : Response → List Nat
  | .lock _ _ _ _ _ fencingToken _ _ => fencingToken.toList
  | .compositeLock _ _ _ _ fencingTokens _ => (fencingTokens.getD ∅).toList.map Prod.snd
  | _ => []

theorem ResponseReader.route_eq_filter {reader : ResponseReader} (uuid : String) {responses : List Response}
    (h : ∀ r ∈ responses, reader.frameBytes r ≤ reader.frameCap) :
    reader.route uuid responses = responses.filter (·.correlationUuid = uuid) := by
  induction responses with
  | nil => rfl
  | cons r rest ih =>
    have hr := h r List.mem_cons_self
    rw [route, if_neg (by omega), ih fun r hr => h r (List.mem_cons_of_mem _ hr), List.filter_cons]
    simp only [decide_eq_true_eq]

/-- While every frame is within the cap, a call is given all that is delivered under
its uuid. -/
theorem Broker.routed_eq_received {b : Broker} {reader : ResponseReader} {client : ClientId} (uuid : String)
    (h : ∀ s ∈ b.sent, s.client = client → reader.frameBytes s.response ≤ reader.frameCap) :
    b.routed reader client uuid = b.received client uuid := by
  rw [Broker.routed, ResponseReader.route_eq_filter, List.filter_reverse, List.filter_map, List.filter_filter]
  · simp only [Broker.received, Function.comp_def, Bool.and_comm]
  · intro r hr
    simp only [List.mem_reverse, List.mem_map, List.mem_filter, Bool.and_eq_true, decide_eq_true_eq] at hr
    obtain ⟨s, ⟨hs, -, hclient⟩, rfl⟩ := hr
    exact h s hs hclient

/-! ## Grants the facade lets through -/

theorem validateGuard_single {key lockUuid : String} {token : Nat} (hu : lockUuid ≠ "")
    (ht : validToken token = true) : validateGuard (.single key lockUuid (some token)) = .ok () := by
  have hsize : ((∅ : OrdMap String Nat).insert key token).size = 1 :=
    OrdMap.size_eq_one (OrdMap.get_insert _ key key token ▸ if_pos rfl) fun a w ha => by
      rw [OrdMap.get_insert] at ha
      split at ha
      · rename_i he
        exact he.symm
      · simp at ha
  simp [validateGuard, LockGuard.single, hu, ht, hsize]

theorem validateKeys_ok {tokens : OrdMap String Nat} : ∀ (keys unique : List String), keys.Nodup →
    (∀ k ∈ keys, k ∉ unique) → (∀ k ∈ keys, ∃ t, tokens[k]? = some t ∧ validToken t = true) →
    validateKeys tokens unique keys = .ok ()
  | [], _, _, _, _ => rfl
  | key :: keys, unique, hnd, hnew, htokens => by
    obtain ⟨t, ht, hvalid⟩ := htokens key List.mem_cons_self
    obtain ⟨hkey, hnd⟩ := List.nodup_cons.1 hnd
    rw [validateKeys, if_neg (hnew key List.mem_cons_self), ht]
    simp only [hvalid, Bool.not_true, Bool.false_eq_true, if_false]
    refine validateKeys_ok keys (key :: unique) hnd (fun k hk => ?_) fun k hk => htokens k (List.mem_cons_of_mem _ hk)
    rw [List.mem_cons, not_or]
    exact ⟨fun he => hkey (he ▸ hk), hnew k (List.mem_cons_of_mem _ hk)⟩

/-- Two keys or more, each once, each with its token. -/
theorem validateGuard_composite {keys : List String} {lockUuid : String} {tokens : OrdMap String Nat}
    (hu : lockUuid ≠ "") (hlen : 2 ≤ keys.length) (hnd : keys.Nodup) (hkeys : ∀ k, k ∈ tokens ↔ k ∈ keys)
    (hvalid : ∀ (k : String) (t : Nat), tokens[k]? = some t → validToken t = true) :
    validateGuard (.composite keys lockUuid tokens) = .ok () := by
  have hsize := OrdMap.size_eq_length hnd hkeys
  have hloop : validateKeys tokens [] keys = .ok () := by
    refine validateKeys_ok keys [] hnd (fun _ _ => List.not_mem_nil) fun k hk => ?_
    obtain ⟨t, ht⟩ := OrdMap.mem_iff_get.1 ((hkeys k).2 hk)
    exact ⟨t, ht, hvalid k t ht⟩
  match keys, hlen with
  | first :: second :: rest, _ =>
    simp only [validateGuard, LockGuard.composite, if_neg hu, Option.isSome_none, Bool.false_eq_true, if_false,
      reduceCtorEq, hsize, ne_eq, not_true, hloop]

/-- A composite grant of one key carries no scalar token, and is refused. -/
theorem two_le_of_validateGuard {keys : List String} {lockUuid : String} {tokens : OrdMap String Nat}
    (h : validateGuard (.composite keys lockUuid tokens) = .ok ()) : 2 ≤ keys.length := by
  match keys with
  | [] => cases h
  | [key] =>
    simp only [validateGuard, LockGuard.composite, if_true] at h
    split at h <;> cases h
  | _ :: _ :: _ => simp

end LiveMutex
