import MiniRedis.Benchmark.SingleLock
import MiniRedis.Concurrency.System
import MiniRedis.Lib.SingleFlight

/-!
# The baseline shared by threads

`SingleLockCache` has a `get_or_compute` too. It looks the key up, joins or registers a future in
`in_flight_` under the mutex, and its owner completes the promise, erases the future and reads it like
everybody else. Between the lookup and the mutex the key is not looked up again, so that a key which
has been stored meanwhile is loaded a second time.

The futures follow the single-flight protocol of the sharded cache, hence keep its promises: one
loader for a key at a time, one outcome for all who joined, nothing left in flight.
-/
namespace MiniRedis
variable {Key Value Exn : Type}

/-- Where a thread of the baseline is. -/
inductive BaselinePc (Key Value Exn : Type)
  | idle
  /-- `get`, before it reads the clock. -/
  | getSample (caller : Caller) (key : Key)
  | get (caller : Caller) (key : Key) (now : TimePoint)
  /-- `set`, before it reads the clock. -/
  | setSample (key : Key) (value : Value) (ttl : Option Millis)
  | set (key : Key) (value : Value) (ttl : Option Millis) (now : TimePoint)
  | del (key : Key)
  /-- `get_or_compute` has missed. -/
  | join (key : Key) (ttl : Option Millis)
  | loading (key : Key) (ttl : Option Millis) (record : RecordId)
  /-- The loader has returned; `set` is about to read the clock. -/
  | loaded (key : Key) (ttl : Option Millis) (record : RecordId) (value : Value)
  | storing (key : Key) (ttl : Option Millis) (record : RecordId) (value : Value) (now : TimePoint)
  /-- The promise is about to be completed. -/
  | stored (key : Key) (record : RecordId) (value : Value)
  | threw (key : Key) (record : RecordId) (exn : Exn)
  /-- The future is about to be erased. -/
  | completed (key : Key) (record : RecordId) (out : Except Exn Value)
  /-- `waiting_future.get()`, for the owner or another caller. -/
  | waiting (owner : Bool) (key : Key) (record : RecordId)
  /-- The promise was satisfied before. -/
  | broken
  | count
  | done (result : Result Value Exn) (source : Option (Load Key))
  deriving DecidableEq

inductive WorkloadCall (Key Value : Type)
  | set (key : Key) (value : Value) (ttl : Option Millis)
  | get (key : Key)
  | del (key : Key)
  | getOrCompute (key : Key) (ttl : Option Millis)
  | activeKeyCount

inductive BaselineAction (Key Value Exn : Type)
  | tick (now : TimePoint)
  | call (t : ℕ) (c : WorkloadCall Key Value)
  | run (t : ℕ)
  | loaderReturn (t : ℕ) (value : Value)
  | loaderThrow (t : ℕ) (exn : Exn)

def WorkloadCall.start : WorkloadCall Key Value → BaselinePc Key Value Exn
  | .set k v ttl => .setSample k v ttl
  | .get k => .getSample .client k
  | .del k => .del k
  | .getOrCompute k ttl => .getSample (.compute ttl) k
  | .activeKeyCount => .count

/-- Where `get` leads. -/
def BaselinePc.afterGet (key : Key) (found : Option Value) : Caller → BaselinePc Key Value Exn
  | .client => .done (.got found) none
  | .compute ttl =>
      match found with
      | some v => .done (.computed (.ok v)) none
      | none => .join key ttl

structure BaselineSystem (Key Value Exn : Type) where
  cache : SingleLockCache Key Value
  /-- `in_flight_` -/
  inFlight : AList fun _ : Key => RecordId
  clock : TimePoint
  promises : RecordId → Option (Except Exn Value)
  /-- Records from this one on have not been created. -/
  nextRecord : RecordId
  threads : ℕ → BaselinePc Key Value Exn

namespace BaselineSystem

/-- A fresh baseline nobody has called. -/
def init (maxKeys : ℕ) (now : TimePoint) : BaselineSystem Key Value Exn where
  cache := SingleLockCache.construct maxKeys
  inFlight := ∅
  clock := now
  promises := fun _ => none
  nextRecord := 0
  threads := fun _ => .idle

def setPc (t : ℕ) (pc : BaselinePc Key Value Exn) (s : BaselineSystem Key Value Exn) :
    BaselineSystem Key Value Exn :=
  { s with threads := Function.update s.threads t pc }

/-- The owner of a record completes its promise, once. -/
def complete (t : ℕ) (k : Key) (r : RecordId) (out : Except Exn Value)
    (s : BaselineSystem Key Value Exn) : BaselineSystem Key Value Exn :=
  match s.promises r with
  | none => { s with promises := Function.update s.promises r (some out) }.setPc t
      (.completed k r out)
  | some _ => s.setPc t .broken

variable [DecidableEq Key]

/-- The next step of thread `t`. There is none while the thread is idle, broken, in its loader or
waiting for a promise that is not completed. -/
def runThread (t : ℕ) (s : BaselineSystem Key Value Exn) : Option (BaselineSystem Key Value Exn) :=
  match s.threads t with
  | .idle => none
  | .loading .. => none
  | .broken => none
  | .getSample caller k => some (s.setPc t (.get caller k s.clock))
  | .get caller k now =>
      let r := s.cache.get k now
      some ({ s with cache := r.2 }.setPc t (.afterGet k r.1 caller))
  | .setSample k v ttl => some (s.setPc t (.set k v ttl s.clock))
  | .set k v ttl now =>
      let r := s.cache.set k v ttl now
      some ({ s with cache := r.2 }.setPc t (.done (.stored r.1) none))
  | .del k =>
      let r := s.cache.del k
      some ({ s with cache := r.2 }.setPc t (.done (.deleted r.1) none))
  | .join k ttl =>
      match s.inFlight.lookup k with
      | some r => some (s.setPc t (.waiting false k r))
      | none =>
          some ({ s with
            inFlight := s.inFlight.insert k s.nextRecord
            nextRecord := s.nextRecord + 1 }.setPc t (.loading k ttl s.nextRecord))
  | .loaded k ttl r v => some (s.setPc t (.storing k ttl r v s.clock))
  | .storing k ttl r v now =>
      some ({ s with cache := (s.cache.set k v ttl now).2 }.setPc t (.stored k r v))
  | .stored k r v => some (s.complete t k r (.ok v))
  | .threw k r exn => some (s.complete t k r (.error exn))
  | .completed k r _ =>
      some ({ s with inFlight := s.inFlight.erase k }.setPc t (.waiting true k r))
  | .waiting _ k r =>
      (s.promises r).map fun out => s.setPc t (.done (.computed out) (some (k, r)))
  | .count => some (s.setPc t (.done (.counted s.cache.map.card) none))
  | .done .. => some (s.setPc t .idle)

/-- One step of the system. -/
def step (a : BaselineAction Key Value Exn) (s : BaselineSystem Key Value Exn) :
    Option (BaselineSystem Key Value Exn) :=
  match a with
  | .tick now => if s.clock ≤ now then some { s with clock := now } else none
  | .call t c =>
      match s.threads t with
      | .idle => some (s.setPc t c.start)
      | _ => none
  | .run t => s.runThread t
  | .loaderReturn t v =>
      match s.threads t with
      | .loading k ttl r => some (s.setPc t (.loaded k ttl r v))
      | _ => none
  | .loaderThrow t exn =>
      match s.threads t with
      | .loading k _ r => some (s.setPc t (.threw k r exn))
      | _ => none

end BaselineSystem
end MiniRedis
