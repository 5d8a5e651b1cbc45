/-
The wire protocol's values: what a client asks of the broker and what the
broker answers. Field names are the source's; counters are natural numbers
(the wire's `u32`/`u64`), a `BTreeMap` is an `OrdMap`.
-/
import LiveMutex.Lib.OrdMap

namespace LiveMutex

abbrev ClientId := Nat

/-- `MAX_COMPOSITE_KEYS` -/
def maxCompositeKeys : Nat := 5

def protocolVersion : String := "0.1.0"

/-- The largest `u64`. -/
def u64Max : Nat := 2 ^ 64 - 1

/-- A `usize` read as a `u32` (`as u32`). -/
def asU32 (n : Nat) : Nat := n % 2 ^ 32

inductive Request where
  | version (uuid value : String)
  | auth (uuid token : String)
  | lock (uuid : String) (key : Option String) (keys : Option (List String)) (pid : Option Int)
      (ttl : Option Nat) (max : Option Nat) (force : Bool) (retryCount : Nat)
      (keepLocksAfterDeath : Bool) (wait : Option Bool)
  | unlock (uuid : String) (key : Option String) (keys : Option (List String))
      (lockUuid : Option String) (force : Bool)
  | registerRead (uuid key : String)
  | registerWrite (uuid key : String)
  | endRead (uuid key : String)
  | endWrite (uuid key : String)
  | lockInfo (uuid key : String)
  | ls (uuid : String)
  | heartbeat (uuid : String)
  deriving DecidableEq, Repr

inductive Response where
  | version (uuid brokerVersion : String) (ok : Bool) (error : Option String)
  | auth (uuid : String) (ok : Bool) (error : Option String)
  | lock (uuid key : String) (acquired : Bool) (lockRequestCount : Nat) (lockUuid : Option String)
      (fencingToken : Option Nat) (readersCount : Option Nat) (error : Option String)
  | compositeLock (uuid : String) (keys : List String) (acquired : Bool) (lockUuid : Option String)
      (fencingTokens : Option (OrdMap String Nat)) (error : Option String)
  | unlock (uuid : String) (keys : List String) (unlocked : Bool) (lockRequestCount : Nat)
      (error : Option String)
  | registerReadResult (uuid key : String) (readersCount : Nat) (writerFlag granted : Bool)
      (lockUuid : Option String) (fencingToken : Option Nat)
  | registerWriteResult (uuid key : String) (readersCount : Nat) (writerFlag granted : Bool)
      (lockUuid : Option String) (fencingToken : Option Nat)
  | endReadResult (uuid key : String) (readersCount : Nat)
  | endWriteResult (uuid key : String) (readersCount : Nat) (writerFlag : Bool)
  | lockInfo (uuid key : String) (isLocked : Bool) (lockholderUuids : List String)
      (lockRequestCount readersCount : Nat) (writerFlag : Bool)
  | lsResult (uuid : String) (keys : List String)
  | error (uuid error : String)
  | ok (uuid : String)
  deriving DecidableEq

end LiveMutex
