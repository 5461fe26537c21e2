import MiniRedis.Cache.ShardedCache
import MiniRedis.Lib.Transition

/-!
# The cache shared by threads

Any number of threads call the cache. A call is cut at the points where another thread can come in
between: each critical section is one step, and so are the reading of a clock outside a lock, the
start and the end of a loader, and the completion of a promise. A thread's program counter `Pc`
says where it stands and holds its local variables.

Loaders are code of the caller: they may return any value or throw anything, at any time, and do
not call the cache. `origin` and the `source` of a finished call are instrumentation. They record
which load produced a value, and no step depends on them.
-/
namespace MiniRedis

/-- A load of a key, named by the in-flight record its owner registered. -/
abbrev Load (Key : Type) := Key × RecordId

/-- Who runs `get`: a client, or `get_or_compute` before anything else. -/
inductive Caller
  | client
  | compute (ttl : Option Millis)
  deriving DecidableEq, Repr

inductive Result (Value Exn : Type)
  | got (value : Option Value)
  | stored (ok : Bool)
  | deleted (ok : Bool)
  /-- What `get_or_compute` returns or throws. -/
  | computed (out : Except Exn Value)
  | cleaned
  | counted (n : ℕ)
  deriving DecidableEq

/-- Where a thread is. -/
inductive Pc (Key Value Exn : Type)
  | idle
  /-- `get`, before it reads the clock. -/
  | getSample (caller : Caller) (key : Key)
  | getShared (caller : Caller) (key : Key) (now : TimePoint)
  | getExclusive (caller : Caller) (key : Key) (now : TimePoint)
  | set (key : Key) (value : Value) (ttl : Option Millis)
  | del (key : Key)
  /-- `get_or_compute` has missed. -/
  | recheck (key : Key) (ttl : Option Millis)
  /-- The owner of a record, about to call its loader. -/
  | registered (key : Key) (ttl : Option Millis) (record : RecordId)
  | loading (key : Key) (ttl : Option Millis) (record : RecordId)
  /-- The loader has returned; its value is about to be stored. -/
  | loaded (key : Key) (ttl : Option Millis) (record : RecordId) (value : Value)
  /-- `set` has returned `ok`; the promise is about to be completed. -/
  | stored (key : Key) (record : RecordId) (value : Value) (ok : Bool)
  /-- The loader has thrown; the promise is about to be completed. -/
  | threw (key : Key) (record : RecordId) (exn : Exn)
  /-- The promise is completed; the record is about to be erased. -/
  | completed (key : Key) (record : RecordId) (out : Except Exn Value)
  /-- `inflight->future.get()` -/
  | waiting (key : Key) (record : RecordId)
  /-- The promise was satisfied before: `std::future_error` escapes from the handler. -/
  | broken
  | cleanupSample
  /-- `cleanup_expired`, about to lock shard `i`. -/
  | cleanup (now : TimePoint) (i : ℕ)
  | countSample
  /-- `active_key_count`, about to lock shard `i`. -/
  | count (now : TimePoint) (i : ℕ) (total : ℕ)
  /-- The call has returned. -/
  | done (result : Result Value Exn) (source : Option (Load Key))
  deriving DecidableEq

inductive Call (Key Value : Type)
  | get (key : Key)
  | set (key : Key) (value : Value) (ttl : Option Millis)
  | del (key : Key)
  | getOrCompute (key : Key) (ttl : Option Millis)
  | cleanupExpired
  | activeKeyCount

inductive Action (Key Value Exn : Type)
  /-- Time passes. -/
  | tick (now : TimePoint)
  /-- Thread `t` makes a call. -/
  | call (t : ℕ) (c : Call Key Value)
  /-- Thread `t` takes its next step. -/
  | run (t : ℕ)
  | loaderReturn (t : ℕ) (value : Value)
  | loaderThrow (t : ℕ) (exn : Exn)

variable {Key Value Exn : Type}

def Call.start : Call Key Value → Pc Key Value Exn
  | .get k => .getSample .client k
  | .set k v ttl => .set k v ttl
  | .del k => .del k
  | .getOrCompute k ttl => .getSample (.compute ttl) k
  | .cleanupExpired => .cleanupSample
  | .activeKeyCount => .countSample

/-- Where `get` leads when it has found nothing. -/
def Caller.missed (key : Key) : Caller → Pc Key Value Exn
  | .client => .done (.got none) none
  | .compute ttl => .recheck key ttl

/-- Where `get` leads when it has found a value. -/
def Caller.found (value : Value) (source : Option (Load Key)) : Caller → Pc Key Value Exn
  | .client => .done (.got (some value)) source
  | .compute _ => .done (.computed (.ok value)) source

variable (P : CacheParams Key Value)

structure System (Exn : Type) where
  cache : ShardedCache P
  clock : TimePoint
  /-- What the shared futures hold. -/
  promises : RecordId → Option (Except Exn Value)
  /-- Records from this one on have not been created. -/
  nextRecord : RecordId
  threads : ℕ → Pc Key Value Exn
  /-- The load, if it was one, that last stored a value under a key. -/
  origin : Key → Option RecordId

/-- A fresh cache nobody has called. -/
def System.init (Exn : Type) (maxKeys : ℕ) (now : TimePoint) : System P Exn where
  cache := ShardedCache.construct P maxKeys
  clock := now
  promises := fun _ => none
  nextRecord := 0
  threads := fun _ => .idle
  origin := fun _ => none

namespace System
variable {P}

def setPc (t : ℕ) (pc : Pc Key Value Exn) (s : System P Exn) : System P Exn :=
  { s with threads := Function.update s.threads t pc }

/-- The load that produced the value stored under a key. -/
def source (k : Key) (s : System P Exn) : Option (Load Key) := (s.origin k).map fun r => (k, r)

/-- The owner of a record completes its promise, once. -/
def complete (t : ℕ) (k : Key) (r : RecordId) (out : Except Exn Value) (s : System P Exn) :
    System P Exn :=
  match s.promises r with
  | none => { s with promises := Function.update s.promises r (some out) }.setPc t
      (.completed k r out)
  | some _ => s.setPc t .broken

variable [DecidableEq Key]

/-- `set_impl` for thread `t`: its result, and the system with the lock released. -/
def store (k : Key) (v : Value) (ttl : Option Millis) (record : Option RecordId)
    (s : System P Exn) : Bool × System P Exn :=
  let r := s.cache.set k v ttl s.clock
  (r.1, { s with cache := r.2, origin := Function.update s.origin k record })

/-- The next step of thread `t`. There is none while the thread is idle, broken, in its loader or
waiting for a promise that is not completed. -/
def runThread (t : ℕ) (s : System P Exn) : Option (System P Exn) :=
  match s.threads t with
  | .idle => none
  | .loading .. => none
  | .broken => none
  | .getSample caller k => some (s.setPc t (.getShared caller k s.clock))
  | .getShared caller k now =>
      let r := s.cache.withLock (shardForKey P k) (Locked.getSharedLocked k)
      some ({ s with cache := r.2 }.setPc t
        (if r.1 then .getExclusive caller k now else caller.missed k))
  | .getExclusive caller k now =>
      let r := s.cache.withLock (shardForKey P k) (Locked.getExclusiveLocked k now)
      some ({ s with cache := r.2 }.setPc t
        (match r.1 with
          | some v => caller.found v (s.source k)
          | none => caller.missed k))
  | .set k v ttl =>
      let r := s.store k v ttl none
      some (r.2.setPc t (.done (.stored r.1) none))
  | .del k =>
      let r := s.cache.del k
      some ({ s with cache := r.2 }.setPc t (.done (.deleted r.1) none))
  | .recheck k ttl =>
      let r := s.cache.withLock (shardForKey P k) (Locked.recheckLocked k s.clock s.nextRecord)
      match r.1 with
      | .hit v => some ({ s with cache := r.2 }.setPc t (.done (.computed (.ok v)) (s.source k)))
      | .joined record => some ({ s with cache := r.2 }.setPc t (.waiting k record))
      | .owner record =>
          some ({ s with cache := r.2, nextRecord := s.nextRecord + 1 }.setPc t
            (.registered k ttl record))
  | .registered k ttl record => some (s.setPc t (.loading k ttl record))
  | .loaded k ttl record v =>
      let r := s.store k v ttl (some record)
      some (r.2.setPc t (.stored k record v r.1))
  | .stored k record v _ => some (s.complete t k record (.ok v))
  | .threw k record exn => some (s.complete t k record (.error exn))
  | .completed k record out =>
      let r := s.cache.withLock (shardForKey P k) fun l => ((), l.unregisterLocked k)
      some ({ s with cache := r.2 }.setPc t (.done (.computed out) (some (k, record))))
  | .waiting k record =>
      (s.promises record).map fun out => s.setPc t (.done (.computed out) (some (k, record)))
  | .cleanupSample => some (s.setPc t (.cleanup s.clock 0))
  | .cleanup now i =>
      if h : i < P.numShards then
        some ({ s with cache := s.cache.cleanupShard now ⟨i, h⟩ }.setPc t (.cleanup now (i + 1)))
      else some (s.setPc t (.done .cleaned none))
  | .countSample => some (s.setPc t (.count s.clock 0 0))
  | .count now i total =>
      if h : i < P.numShards then
        some (s.setPc t (.count now (i + 1) (total + (s.cache.shards ⟨i, h⟩).activeKeys now)))
      else some (s.setPc t (.done (.counted total) none))
  | .done .. => some (s.setPc t .idle)

/-- One step of the system. -/
def step (a : Action Key Value Exn) (s : System P Exn) : Option (System P Exn) :=
  match a with
  | .tick now => if s.clock ≤ now then some { s with clock := now } else none
  | .call t c =>
      match s.threads t with
      | .idle => some (s.setPc t c.start)
      | _ => none
  | .run t => s.runThread t
  | .loaderReturn t v =>
      match s.threads t with
      | .loading k ttl record => some (s.setPc t (.loaded k ttl record v))
      | _ => none
  | .loaderThrow t exn =>
      match s.threads t with
      | .loading k _ record => some (s.setPc t (.threw k record exn))
      | _ => none

/-- The transition relation. -/
def Step (s : System P Exn) (a : Action Key Value Exn) (s' : System P Exn) : Prop :=
  s.step a = some s'

/-- The runs of a cache for `maxKeys` keys. -/
def Reachable (maxKeys : ℕ) (s : System P Exn) : Prop :=
  ∃ now as, Transition.Run Step (init P Exn maxKeys now) as s

theorem reachable_of_exec {maxKeys : ℕ} {now : TimePoint} {as : List (Action Key Value Exn)}
    {s : System P Exn} (h : Transition.exec step as (init P Exn maxKeys now) = some s) :
    s.Reachable maxKeys := ⟨now, as, Transition.run_of_exec h⟩

end System
end MiniRedis
