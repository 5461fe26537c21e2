import MiniRedis.Cache.Clock
import MiniRedis.Lib.RecencyList
import MiniRedis.Lib.StableList
import MiniRedis.Lib.WordCounter

/-!
# One shard of the cache, under its lock

The data of a shard and the code that runs while the shard's mutex is held. A key's entry lives in
the hash map; its recency is the place of a node in the linked list `lru`, and the entry stores the
iterator of that node. An iterator into the map is modelled by the key and the entry it points to.

`Locked` is what a thread holding the mutex works on: the shard and the cache-wide counters, which
are atomic. Every operation of the cache is a composition of the functions below.

## Main definitions

* `CacheParams` — the template parameters.
* `Entry`, `Shard`, `Counters`, `Locked` — the state.
* `touchLruLocked`, `eraseEntryLocked`, `evictIfNeededLocked`, `setImpl` — the private members.
* `getSharedLocked`, `getExclusiveLocked`, `delLocked`, `recheckLocked`, `cleanupLocked` — the
  critical sections of the public operations.
-/
namespace MiniRedis

/-- The template parameters of `ShardedCache`, with the size of its `Entry` type. -/
structure CacheParams (Key Value : Type) where
  numShards : ℕ
  numShards_pos : 0 < numShards
  hash : Key → ℕ
  keySizer : Key → ℕ
  valueSizer : Value → ℕ
  sizeofEntry : ℕ

/-- The identity of a shared `InFlight` object. -/
abbrev RecordId := ℕ

structure Entry (Value : Type) where
  value : Value
  hasExpiry : Bool
  expiry : TimePoint
  /-- `std::list<Key>::iterator` -/
  lruPos : ℕ
  bytes : ℕ

structure Shard (Key Value : Type) where
  map : AList (fun _ : Key => Entry Value)
  lru : StableList Key
  inflight : AList (fun _ : Key => RecordId)
  capacity : ℕ

/-- The atomic members of the cache. The counts of events are not wrapped around: the source has 64 bits
for each. -/
structure Counters where
  hits : ℕ
  misses : ℕ
  evictions : ℕ
  expirations : ℕ
  memoryBytes : WordCounter
  deriving DecidableEq, Repr

/-- What a thread that holds a shard's mutex reads and writes. -/
structure Locked (Key Value : Type) where
  shard : Shard Key Value
  counters : Counters

/-- A freshly constructed shard. -/
def Shard.empty {Key Value : Type} (capacity : ℕ) : Shard Key Value :=
  ⟨∅, StableList.empty, ∅, capacity⟩

def Counters.zero : Counters := ⟨0, 0, 0, 0, WordCounter.zero⟩

variable {Key Value : Type}

/-- `is_expired` -/
def isExpired (e : Entry Value) (now : TimePoint) : Bool := e.hasExpiry && decide (e.expiry ≤ now)

namespace Counters

def hit (c : Counters) : Counters := { c with hits := c.hits + 1 }
def miss (c : Counters) : Counters := { c with misses := c.misses + 1 }
def evicted (c : Counters) : Counters := { c with evictions := c.evictions + 1 }
def expired (c : Counters) : Counters := { c with expirations := c.expirations + 1 }
def addMemory (n : ℕ) (c : Counters) : Counters :=
  { c with memoryBytes := c.memoryBytes.fetchAdd n }
def subMemory (n : ℕ) (c : Counters) : Counters :=
  { c with memoryBytes := c.memoryBytes.fetchSub n }

end Counters

variable (P : CacheParams Key Value)

/-- `estimate_entry_bytes`, in `size_t` arithmetic. -/
def CacheParams.estimateEntryBytes (key : Key) (value : Value) : ℕ :=
  (P.sizeofEntry + P.keySizer key + P.valueSizer value) % WordCounter.modulus

namespace Locked

def count (f : Counters → Counters) (s : Locked Key Value) : Locked Key Value :=
  { s with counters := f s.counters }

@[simp] theorem shard_count (f : Counters → Counters) (s : Locked Key Value) :
    (s.count f).shard = s.shard := rfl
@[simp] theorem counters_count (f : Counters → Counters) (s : Locked Key Value) :
    (s.count f).counters = f s.counters := rfl

variable [DecidableEq Key]

/-- Splice the entry's node to the front of `lru` and store its new iterator. -/
def touchLruLocked (key : Key) (e : Entry Value) (s : Locked Key Value) : Locked Key Value :=
  let lru := s.shard.lru.spliceFront e.lruPos
  { s with shard := { s.shard with
      lru := lru
      map := s.shard.map.insert key { e with lruPos := lru.begin } } }

/-- Subtract the entry's bytes, unlink its node and erase it from the map. -/
def eraseEntryLocked (key : Key) (e : Entry Value) (s : Locked Key Value) : Locked Key Value :=
  { shard := { s.shard with
      lru := s.shard.lru.erase e.lruPos
      map := s.shard.map.erase key }
    counters := s.counters.subMemory e.bytes }

/-- The body of the eviction loop. There is none when `lru.back()` is undefined. -/
def evictBody (s : Locked Key Value) : Option (Locked Key Value) :=
  s.shard.lru.back?.map fun oldestKey =>
    match s.shard.map.lookup oldestKey with
    | some e => (s.eraseEntryLocked oldestKey e).count Counters.evicted
    | none => { s with shard := { s.shard with lru := s.shard.lru.popBack } }

/-- `while (map.size() > capacity)`, given fuel for every entry and every node. -/
def evictLoop : ℕ → Locked Key Value → Locked Key Value
  | 0, s => s
  | fuel + 1, s =>
      if s.shard.capacity < s.shard.map.card then
        match s.evictBody with
        | some s' => evictLoop fuel s'
        | none => s
      else s

def evictIfNeededLocked (s : Locked Key Value) : Locked Key Value :=
  evictLoop (s.shard.map.card + s.shard.lru.toList.length) s

/-- The branch of `set_impl` for a key that is present. -/
def overwriteLocked (key : Key) (value : Value) (ttl : Option Millis) (now : TimePoint)
    (e : Entry Value) (s : Locked Key Value) : Locked Key Value :=
  let e' : Entry Value :=
    { value := value
      hasExpiry := ttl.isSome
      expiry := (ttl.map (expiryAt now)).getD 0
      lruPos := e.lruPos
      bytes := P.estimateEntryBytes key value }
  ((s.count (Counters.subMemory e.bytes)).touchLruLocked key e').count
    (Counters.addMemory e'.bytes)

/-- The branch of `set_impl` for a new key. The counter is bumped from the moved-from entry, whose
size field a move leaves as it was. -/
def insertLocked (key : Key) (value : Value) (ttl : Option Millis) (now : TimePoint)
    (s : Locked Key Value) : Locked Key Value :=
  let lru := s.shard.lru.pushFront key
  let e : Entry Value :=
    { value := value
      hasExpiry := ttl.isSome
      expiry := (ttl.map (expiryAt now)).getD 0
      lruPos := lru.begin
      bytes := P.estimateEntryBytes key value }
  { shard := { s.shard with lru := lru, map := s.shard.map.insert key e }
    counters := s.counters.addMemory e.bytes }

/-- `set_impl`: the returned flag and what it leaves. -/
def setImpl (key : Key) (value : Value) (ttl : Option Millis) (now : TimePoint)
    (s : Locked Key Value) : Bool × Locked Key Value :=
  if s.shard.capacity = 0 then (false, s)
  else
    let s' := match s.shard.map.lookup key with
      | some e => s.overwriteLocked P key value ttl now e
      | none => s.insertLocked P key value ttl now
    (true, s'.evictIfNeededLocked)

/-- Erase an entry because its deadline has passed. -/
def expireLocked (key : Key) (e : Entry Value) (s : Locked Key Value) : Locked Key Value :=
  (s.eraseEntryLocked key e).count Counters.expired

/-- `get`, under the shared lock: is there a reason to take the exclusive one? -/
def getSharedLocked (key : Key) (s : Locked Key Value) : Bool × Locked Key Value :=
  match s.shard.map.lookup key with
  | none => (false, s.count Counters.miss)
  | some _ => (true, s)

/-- `get`, under the exclusive lock. -/
def getExclusiveLocked (key : Key) (now : TimePoint) (s : Locked Key Value) :
    Option Value × Locked Key Value :=
  match s.shard.map.lookup key with
  | none => (none, s.count Counters.miss)
  | some e =>
      if isExpired e now then (none, (s.expireLocked key e).count Counters.miss)
      else (some e.value, (s.touchLruLocked key e).count Counters.hit)

/-- `del` -/
def delLocked (key : Key) (s : Locked Key Value) : Bool × Locked Key Value :=
  match s.shard.map.lookup key with
  | none => (false, s)
  | some e => (true, s.eraseEntryLocked key e)

/-- How the second lookup of `get_or_compute` ends. -/
inductive Recheck (Value : Type)
  /-- The key is present after all. -/
  | hit (value : Value)
  /-- Another call is loading the key. -/
  | joined (record : RecordId)
  /-- This call has registered its own record and must load. -/
  | owner (record : RecordId)
  deriving DecidableEq, Repr

/-- The critical section of `get_or_compute` that looks the key up again and, if it is still
missing, joins the record in flight or registers a new one, the object `fresh`. -/
def recheckLocked (key : Key) (now : TimePoint) (fresh : RecordId) (s : Locked Key Value) :
    Recheck Value × Locked Key Value :=
  match s.shard.map.lookup key with
  | none => register s
  | some e =>
      if isExpired e now then register (s.expireLocked key e)
      else (.hit e.value, (s.touchLruLocked key e).count Counters.hit)
where
  register (s : Locked Key Value) : Recheck Value × Locked Key Value :=
    match s.shard.inflight.lookup key with
    | some record => (.joined record, s)
    | none =>
        (.owner fresh,
          { s with shard := { s.shard with inflight := s.shard.inflight.insert key fresh } })

/-- `shard.inflight.erase(key)` -/
def unregisterLocked (key : Key) (s : Locked Key Value) : Locked Key Value :=
  { s with shard := { s.shard with inflight := s.shard.inflight.erase key } }

/-- One shard's turn in `cleanup_expired`: walk the map and erase what has expired. -/
def cleanupLocked (now : TimePoint) (s : Locked Key Value) : Locked Key Value :=
  s.shard.map.entries.foldl
    (fun s x => if isExpired x.2 now then s.expireLocked x.1 x.2 else s) s

/-! ## What a section finds -/

section Found
variable {s : Locked Key Value} {k : Key} {e : Entry Value} {now : TimePoint}

theorem getSharedLocked_of_none (hk : s.shard.map.lookup k = none) :
    s.getSharedLocked k = (false, s.count Counters.miss) := by
  simp only [getSharedLocked, hk]

theorem getSharedLocked_of_some (he : s.shard.map.lookup k = some e) :
    s.getSharedLocked k = (true, s) := by
  simp only [getSharedLocked, he]

theorem getExclusiveLocked_of_none (hk : s.shard.map.lookup k = none) :
    s.getExclusiveLocked k now = (none, s.count Counters.miss) := by
  simp only [getExclusiveLocked, hk]

theorem getExclusiveLocked_of_expired (he : s.shard.map.lookup k = some e)
    (hexp : isExpired e now = true) :
    s.getExclusiveLocked k now = (none, (s.expireLocked k e).count Counters.miss) := by
  simp only [getExclusiveLocked, he, hexp, if_true]

theorem getExclusiveLocked_of_live (he : s.shard.map.lookup k = some e)
    (hlive : isExpired e now = false) :
    s.getExclusiveLocked k now = (some e.value, (s.touchLruLocked k e).count Counters.hit) := by
  simp only [getExclusiveLocked, he, hlive, Bool.false_eq_true, if_false]

theorem delLocked_of_none (hk : s.shard.map.lookup k = none) : s.delLocked k = (false, s) := by
  simp only [delLocked, hk]

theorem delLocked_of_some (he : s.shard.map.lookup k = some e) :
    s.delLocked k = (true, s.eraseEntryLocked k e) := by
  simp only [delLocked, he]

theorem recheckLocked_of_none (hk : s.shard.map.lookup k = none) (fresh : RecordId) :
    s.recheckLocked k now fresh = recheckLocked.register k fresh s := by
  simp only [recheckLocked, hk]

theorem recheckLocked_of_expired (he : s.shard.map.lookup k = some e)
    (hexp : isExpired e now = true) (fresh : RecordId) :
    s.recheckLocked k now fresh = recheckLocked.register k fresh (s.expireLocked k e) := by
  simp only [recheckLocked, he, hexp, if_true]

theorem recheckLocked_of_live (he : s.shard.map.lookup k = some e)
    (hlive : isExpired e now = false) (fresh : RecordId) :
    s.recheckLocked k now fresh = (.hit e.value, (s.touchLruLocked k e).count Counters.hit) := by
  simp only [recheckLocked, he, hlive, Bool.false_eq_true, if_false]

end Found
end Locked

/-- One shard's share of `active_key_count`. -/
def Shard.activeKeys (now : TimePoint) (sh : Shard Key Value) : ℕ :=
  (sh.map.entries.filter fun x => !isExpired x.2 now).length

end MiniRedis
