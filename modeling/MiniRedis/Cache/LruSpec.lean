import MiniRedis.Cache.Clock
import MiniRedis.Lib.RecencyList
import Mathlib.Algebra.BigOperators.Group.Finset.Basic

/-!
# What the cache is for

The abstract cache: for each shard a recency list of records, bounded by the shard's capacity, and
four tallies. It has no hash table, no linked list and no locks. Shards are any type `ι`, `home`
says which shard a key belongs to and `cap` how many records a shard may hold.

A record is live until its deadline and expired from that instant on. A `set` replaces value and
deadline and puts the record in front; a `get` moves a live record to the front and removes an
expired one; a clean-up removes the expired records and nothing else.
-/
namespace MiniRedis
variable {ι Key Value : Type}

/-- A value and the instant from which it no longer counts, if there is one. -/
structure Record (Value : Type) where
  value : Value
  deadline : Option TimePoint
  deriving DecidableEq, Repr

/-- The record's deadline has been reached. -/
def Record.expired (now : TimePoint) (r : Record Value) : Bool :=
  match r.deadline with
  | some d => decide (d ≤ now)
  | none => false

/-- The record a `set` at `now` stores. -/
def storedRecord (value : Value) (ttl : Option Millis) (now : TimePoint) : Record Value :=
  ⟨value, ttl.map (expiryAt now)⟩

/-- The records whose deadline lies ahead, in order. -/
def liveRecords (now : TimePoint) (xs : RecencyList Key (Record Value)) :
    RecencyList Key (Record Value) := xs.filterEntries fun _ r => !r.expired now

/-- How many lookups and removals of each kind there were. -/
@[ext] structure Tally where
  hits : ℕ
  misses : ℕ
  evictions : ℕ
  expirations : ℕ
  deriving DecidableEq, Repr

namespace Tally

def zero : Tally := ⟨0, 0, 0, 0⟩
def hit (t : Tally) : Tally := { t with hits := t.hits + 1 }
def miss (t : Tally) : Tally := { t with misses := t.misses + 1 }
def evicted (t : Tally) : Tally := { t with evictions := t.evictions + 1 }
def expired (n : ℕ) (t : Tally) : Tally := { t with expirations := t.expirations + n }

@[simp] theorem expired_zero (t : Tally) : t.expired 0 = t := rfl
theorem expired_expired (m n : ℕ) (t : Tally) : (t.expired m).expired n = t.expired (m + n) := by
  simp [expired, Nat.add_assoc]

end Tally

/-- The abstract cache. -/
structure LruCache (ι Key Value : Type) where
  lists : ι → RecencyList Key (Record Value)
  tally : Tally

namespace LruCache

def empty : LruCache ι Key Value := ⟨fun _ => ∅, Tally.zero⟩

variable [DecidableEq ι] [DecidableEq Key] (home : Key → ι) (cap : ι → ℕ)

/-- A `set` on a shard without capacity fails. Otherwise the record goes to the front, and the last
one is dropped if there are now too many. -/
def set (key : Key) (value : Value) (ttl : Option Millis) (now : TimePoint)
    (a : LruCache ι Key Value) : Bool × LruCache ι Key Value :=
  let i := home key
  let r := storedRecord value ttl now
  if cap i = 0 then (false, a)
  else
    (true,
      { lists := Function.update a.lists i (RecencyList.put (cap i) key r (a.lists i))
        tally := if cap i < ((a.lists i).insert key r).card then a.tally.evicted else a.tally })

def get (key : Key) (now : TimePoint) (a : LruCache ι Key Value) :
    Option Value × LruCache ι Key Value :=
  let i := home key
  match (a.lists i).lookup key with
  | none => (none, { a with tally := a.tally.miss })
  | some r =>
      if r.expired now then
        (none,
          { lists := Function.update a.lists i ((a.lists i).erase key)
            tally := (a.tally.expired 1).miss })
      else
        (some r.value,
          { lists := Function.update a.lists i (RecencyList.touch key (a.lists i))
            tally := a.tally.hit })

def del (key : Key) (a : LruCache ι Key Value) : Bool × LruCache ι Key Value :=
  let i := home key
  match (a.lists i).lookup key with
  | none => (false, a)
  | some _ => (true, { a with lists := Function.update a.lists i ((a.lists i).erase key) })

def cleanupExpired [Fintype ι] (now : TimePoint) (a : LruCache ι Key Value) :
    LruCache ι Key Value where
  lists := fun i => liveRecords now (a.lists i)
  tally := a.tally.expired (∑ i, ((a.lists i).card - (liveRecords now (a.lists i)).card))

end LruCache
end MiniRedis
