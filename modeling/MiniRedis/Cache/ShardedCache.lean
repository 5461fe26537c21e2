import MiniRedis.Cache.Holds
import Mathlib.Algebra.BigOperators.Fin

/-!
# The sharded cache, called by one thread

`ShardedCache` with its public operations, each a composition of critical sections. `withLock`
runs a section on one shard; sections of several shards share only the counters. Operations take
the reading of the clock as an argument.

The iteration order of `std::unordered_map` is unspecified. Where it can be seen, in the order of
snapshot items, the model takes it as a parameter, a `HashOrder`.
-/
namespace MiniRedis
variable {Key Value : Type}

structure ShardedCache (P : CacheParams Key Value) where
  maxKeys : ℕ
  shards : Fin P.numShards → Shard Key Value
  counters : Counters

structure SnapshotItem (Key Value : Type) where
  key : Key
  value : Value
  ttlRemaining : Option Millis
  deriving DecidableEq, Repr

structure CacheStats where
  hits : ℕ
  misses : ℕ
  evictions : ℕ
  expirations : ℕ
  memoryBytes : ℕ
  activeKeys : ℕ
  deriving DecidableEq, Repr

/-- An order in which the entries of a map are iterated. -/
structure HashOrder (Key Value : Type) where
  order : AList (fun _ : Key => Entry Value) → List (Sigma fun _ : Key => Entry Value)
  perm : ∀ m, (order m).Perm m.entries

/-- The order in which the model keeps entries. -/
def HashOrder.stored : HashOrder Key Value := ⟨AList.entries, fun _ => .refl _⟩

variable (P : CacheParams Key Value)

/-- Two shards, and keys that are their own hash. -/
def CacheParams.twoShards : CacheParams ℕ ℕ where
  numShards := 2
  numShards_pos := by decide
  hash := id
  keySizer := fun _ => 8
  valueSizer := fun _ => 8
  sizeofEntry := 48

/-- A shard's share of `max_keys`: the quotient, plus one for the first `remainder` shards. -/
def capacityOf (maxKeys : ℕ) (i : Fin P.numShards) : ℕ :=
  maxKeys / P.numShards + if i.val < maxKeys % P.numShards then 1 else 0

/-- `shard_for_key` -/
def shardForKey (key : Key) : Fin P.numShards :=
  ⟨P.hash key % P.numShards, Nat.mod_lt _ P.numShards_pos⟩

/-- The shards with capacity are the first `max_keys` ones. -/
theorem capacityOf_ne_zero_iff (maxKeys : ℕ) (i : Fin P.numShards) :
    capacityOf P maxKeys i ≠ 0 ↔ i.val < maxKeys := by
  have hi := i.isLt
  unfold capacityOf
  by_cases hfew : maxKeys < P.numShards
  · rw [Nat.div_eq_of_lt hfew, Nat.mod_eq_of_lt hfew]
    split <;> omega
  · have hquot : 0 < maxKeys / P.numShards := Nat.div_pos (by omega) P.numShards_pos
    omega

namespace ShardedCache
variable {P}

/-- The constructor. -/
def construct (P : CacheParams Key Value) (maxKeys : ℕ) : ShardedCache P where
  maxKeys := maxKeys
  shards := fun i => Shard.empty (capacityOf P maxKeys i)
  counters := Counters.zero

/-- What the thread holding shard `i`'s mutex works on. -/
def locked (c : ShardedCache P) (i : Fin P.numShards) : Locked Key Value :=
  ⟨c.shards i, c.counters⟩

/-- Release shard `i`'s mutex, leaving `s` behind. -/
def unlock (i : Fin P.numShards) (s : Locked Key Value) (c : ShardedCache P) : ShardedCache P :=
  { c with shards := Function.update c.shards i s.shard, counters := s.counters }

/-- Run a critical section on shard `i`. -/
def withLock {α : Type} (i : Fin P.numShards) (f : Locked Key Value → α × Locked Key Value)
    (c : ShardedCache P) : α × ShardedCache P :=
  let r := f (c.locked i)
  (r.1, c.unlock i r.2)

variable [DecidableEq Key]

def set (key : Key) (value : Value) (ttl : Option Millis) (now : TimePoint)
    (c : ShardedCache P) : Bool × ShardedCache P :=
  c.withLock (shardForKey P key) (Locked.setImpl P key value ttl now)

def get (key : Key) (now : TimePoint) (c : ShardedCache P) : Option Value × ShardedCache P :=
  let r := c.withLock (shardForKey P key) (Locked.getSharedLocked key)
  if r.1 then r.2.withLock (shardForKey P key) (Locked.getExclusiveLocked key now)
  else (none, r.2)

def del (key : Key) (c : ShardedCache P) : Bool × ShardedCache P :=
  c.withLock (shardForKey P key) (Locked.delLocked key)

/-- One shard's turn in `cleanup_expired`. -/
def cleanupShard (now : TimePoint) (i : Fin P.numShards) (c : ShardedCache P) : ShardedCache P :=
  (c.withLock i fun s => ((), s.cleanupLocked now)).2

def cleanupExpired (now : TimePoint) (c : ShardedCache P) : ShardedCache P :=
  (List.finRange P.numShards).foldl (fun c i => c.cleanupShard now i) c

omit [DecidableEq Key]

def activeKeyCount (now : TimePoint) (c : ShardedCache P) : ℕ :=
  ((List.finRange P.numShards).map fun i => (c.shards i).activeKeys now).sum

def memoryUsageBytes (c : ShardedCache P) : ℕ := c.counters.memoryBytes.value

def stats (now : TimePoint) (c : ShardedCache P) : CacheStats where
  hits := c.counters.hits
  misses := c.counters.misses
  evictions := c.counters.evictions
  expirations := c.counters.expirations
  memoryBytes := c.memoryUsageBytes
  activeKeys := c.activeKeyCount now

/-- The item of a stored entry, unless it is expired or has less than a millisecond to live. -/
def snapshotItem (now : TimePoint) (x : Sigma fun _ : Key => Entry Value) :
    Option (SnapshotItem Key Value) :=
  if isExpired x.2 now then none
  else if x.2.hasExpiry then
    let remaining : Millis := (wrap64 (x.2.expiry - now)).tdiv nsPerMs
    if remaining ≤ 0 then none else some ⟨x.1, x.2.value, some remaining⟩
  else some ⟨x.1, x.2.value, none⟩

def snapshotItems (ord : HashOrder Key Value) (now : TimePoint) (c : ShardedCache P) :
    List (SnapshotItem Key Value) :=
  (List.finRange P.numShards).flatMap fun i =>
    (ord.order (c.shards i).map).filterMap (snapshotItem now)

@[simp] theorem fst_withLock {α : Type} (i : Fin P.numShards)
    (f : Locked Key Value → α × Locked Key Value) (c : ShardedCache P) :
    (c.withLock i f).1 = (f (c.locked i)).1 := rfl
@[simp] theorem snd_withLock {α : Type} (i : Fin P.numShards)
    (f : Locked Key Value → α × Locked Key Value) (c : ShardedCache P) :
    (c.withLock i f).2 = c.unlock i (f (c.locked i)).2 := rfl
@[simp] theorem maxKeys_unlock (i : Fin P.numShards) (s : Locked Key Value)
    (c : ShardedCache P) : (c.unlock i s).maxKeys = c.maxKeys := rfl
@[simp] theorem counters_unlock (i : Fin P.numShards) (s : Locked Key Value)
    (c : ShardedCache P) : (c.unlock i s).counters = s.counters := rfl
@[simp] theorem shards_unlock (i : Fin P.numShards) (s : Locked Key Value)
    (c : ShardedCache P) : (c.unlock i s).shards = Function.update c.shards i s.shard := rfl
@[simp] theorem shard_locked (i : Fin P.numShards) (c : ShardedCache P) :
    (c.locked i).shard = c.shards i := rfl
@[simp] theorem counters_locked (i : Fin P.numShards) (c : ShardedCache P) :
    (c.locked i).counters = c.counters := rfl

theorem withLock_eq {α : Type} {i : Fin P.numShards}
    {f : Locked Key Value → α × Locked Key Value} {c : ShardedCache P} {r : α}
    {l : Locked Key Value} (h : f (c.locked i) = (r, l)) : c.withLock i f = (r, c.unlock i l) := by
  simp [withLock, h]

theorem withLock_of_eq {α : Type} {i : Fin P.numShards}
    {f : Locked Key Value → α × Locked Key Value} {c : ShardedCache P} {r : α}
    (h : f (c.locked i) = (r, c.locked i)) : c.withLock i f = (r, c) := by
  simp [withLock, unlock, h]

@[simp] theorem unlock_locked (i : Fin P.numShards) (c : ShardedCache P) :
    c.unlock i (c.locked i) = c := by
  simp [unlock]

end ShardedCache

/-! ## The recency lists of a cache -/

variable [DecidableEq Key]

/-- A list that shard `i` may hold: within its capacity, and only keys that hash to it. -/
structure ListFits (maxKeys : ℕ) (i : Fin P.numShards) (xs : RecencyList Key (Record Value)) :
    Prop where
  bounded : xs.card ≤ capacityOf P maxKeys i
  home : ∀ k r, xs.lookup k = some r → shardForKey P k = i

namespace ListFits
variable {P} {maxKeys : ℕ} {i : Fin P.numShards} {xs : RecencyList Key (Record Value)}

theorem empty : ListFits P maxKeys i (∅ : RecencyList Key (Record Value)) :=
  ⟨Nat.zero_le _, fun _ _ h => by cases h⟩

theorem erase (h : ListFits P maxKeys i xs) (k : Key) : ListFits P maxKeys i (xs.erase k) :=
  ⟨(AList.card_erase_le xs k).trans h.bounded,
    fun j r hj => h.home j r (AList.lookup_of_lookup_erase hj).2⟩

theorem touch (h : ListFits P maxKeys i xs) (k : Key) :
    ListFits P maxKeys i (RecencyList.touch k xs) :=
  ⟨(RecencyList.card_touch k xs).trans_le h.bounded,
    fun j r hj => h.home j r (by rwa [RecencyList.lookup_touch] at hj)⟩

theorem put (h : ListFits P maxKeys i xs) {k : Key} (hk : shardForKey P k = i)
    (r : Record Value) : ListFits P maxKeys i (RecencyList.put (capacityOf P maxKeys i) k r xs) := by
  refine ⟨RecencyList.card_put_le _ _ _ h.bounded, ?_⟩
  intro j r' hj
  by_cases hjk : j = k
  · rw [hjk, hk]
  · exact h.home j r' (RecencyList.lookup_put_of_ne hjk hj)

theorem live (h : ListFits P maxKeys i xs) (now : TimePoint) :
    ListFits P maxKeys i (liveRecords now xs) := by
  refine ⟨(AList.card_filterEntries_le _ xs).trans h.bounded, ?_⟩
  intro k r hk
  rw [liveRecords, AList.lookup_filterEntries] at hk
  exact h.home k r (Option.filter_eq_some_iff.mp hk).1

end ListFits

/-- Every shard represents a recency list it may hold, and has the capacity the constructor gave
it. -/
structure ShardedCache.Rep {P : CacheParams Key Value} (c : ShardedCache P)
    (xs : Fin P.numShards → RecencyList Key (Record Value)) : Prop where
  holds : ∀ i, (c.shards i).Holds P (xs i)
  capacity : ∀ i, (c.shards i).capacity = capacityOf P c.maxKeys i
  fits : ∀ i, ListFits P c.maxKeys i (xs i)

namespace ShardedCache.Rep
variable {P} {c : ShardedCache P} {xs : Fin P.numShards → RecencyList Key (Record Value)}

theorem construct (maxKeys : ℕ) :
    (ShardedCache.construct P maxKeys).Rep (fun _ => (∅ : RecencyList Key (Record Value))) :=
  ⟨fun _ => Shard.holds_empty P _, fun _ => rfl, fun _ => ListFits.empty⟩

theorem card_le (R : c.Rep xs) (i : Fin P.numShards) : (xs i).card ≤ (c.locked i).shard.capacity :=
  (R.fits i).bounded.trans_eq (R.capacity i).symm

/-- Leaving behind a shard that represents a list keeps the representation of the cache. -/
theorem unlock (R : c.Rep xs) {i : Fin P.numShards} {s : Locked Key Value}
    {ys : RecencyList Key (Record Value)} (H : s.shard.Holds P ys)
    (hcap : s.shard.capacity = (c.shards i).capacity) (hfits : ListFits P c.maxKeys i ys) :
    (c.unlock i s).Rep (Function.update xs i ys) := by
  refine ⟨?_, ?_, ?_⟩ <;> intro j <;> by_cases hj : j = i
  · subst hj; simpa using H
  · simpa [hj] using R.holds j
  · subst hj; simpa [hcap] using R.capacity j
  · simpa [hj] using R.capacity j
  · subst hj; simpa using hfits
  · simpa [hj] using R.fits j

/-- A key's entry is in the shard its hash selects. -/
theorem lookup_home (R : c.Rep xs) {i : Fin P.numShards} {k : Key} {e : Entry Value}
    (h : (c.shards i).map.lookup k = some e) : shardForKey P k = i :=
  (R.fits i).home k _ ((R.holds i).lookup_some h)

end ShardedCache.Rep
end MiniRedis
