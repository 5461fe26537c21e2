import MiniRedis.Cache.Lists
import MiniRedis.Concurrency.Invariants

/-!
# A write is read back at once

With fewer keys than shards the constructor leaves the last shards without capacity, and a `set` of
a key whose hash selects one of them is refused. Everywhere else a `set` is accepted, and a `get` of
the same key that comes next finds the value, whether the shard was full or not.
-/
namespace MiniRedis
variable {Key Value Exn : Type} [DecidableEq Key] {P : CacheParams Key Value} {maxKeys : ℕ}

namespace System

/-- **Read your writes.** A `set` without a ttl succeeds exactly if its key's shard is one of the
first `max_keys`; the next `get` then returns the value. A refused `set` changes nothing. -/
theorem read_your_writes {s : System P Exn} (h : s.Reachable maxKeys) (key : Key) (value : Value)
    (now later : TimePoint) :
    (P.hash key % P.numShards < maxKeys →
      (s.cache.set key value none now).1 = true ∧
        ((s.cache.set key value none now).2.get key later).1 = some value) ∧
    (maxKeys ≤ P.hash key % P.numShards → s.cache.set key value none now = (false, s.cache)) := by
  have W := h.wellFormed
  obtain ⟨xs, R⟩ := W.rep
  have hcap := capacityOf_ne_zero_iff P s.cache.maxKeys (shardForKey P key)
  rw [W.maxKeys_eq] at hcap
  constructor
  · intro hindex
    have hroom : capacityOf P s.cache.maxKeys (shardForKey P key) ≠ 0 := by
      rw [W.maxKeys_eq]
      exact hcap.mpr hindex
    have hlookup := R.lookup_set_self hroom value none now
    constructor
    · rw [R.set_ok]
      exact decide_eq_true hroom
    · rw [(R.set key value none now).get_eq, hlookup]
      rfl
  · intro hindex
    refine R.set_of_capacityOf_eq_zero ?_ value none now
    rw [W.maxKeys_eq]
    exact not_not.mp fun hroom => absurd (hcap.mp hroom) (not_lt.mpr hindex)

/-- A cache for one key with two shards has the capacity in the first shard. It is full, and the key in
it is evicted. -/
theorem read_your_writes_fullShard :
    ∃ s : System CacheParams.twoShards Unit, s.Reachable 1 ∧ s.entry 2 ≠ none ∧
      ((s.cache.set 0 7 none 3).2.get 2 3).1 = none ∧
      (s.cache.set 0 7 none 3).1 = true ∧
        ((s.cache.set 0 7 none 3).2.get 0 5).1 = some 7 := by
  let s := (Transition.exec step [.call 0 (.set 2 5 none), .run 0]
    (init CacheParams.twoShards Unit 1 0)).get (by decide)
  have hs : s.Reachable 1 := reachable_of_exec (Option.some_get _).symm
  have hfull : s.entry 2 ≠ none := Option.isSome_iff_ne_none.mp (by decide)
  exact ⟨s, hs, hfull, by decide, (read_your_writes hs 0 7 3 5).1 (by decide)⟩

/-- Such a cache refuses every key of the second shard. -/
theorem set_refused_twoShards :
    ¬ ∀ (P : CacheParams ℕ ℕ) (maxKeys : ℕ) (s : System P Unit), 1 ≤ maxKeys →
      s.Reachable maxKeys → ∀ (key value : ℕ) (now later : TimePoint),
        (s.cache.set key value none now).1 = true ∧
          ((s.cache.set key value none now).2.get key later).1 = some value := by
  intro h
  have hset := (h CacheParams.twoShards 1 (init CacheParams.twoShards Unit 1 0) le_rfl
    ⟨0, [], .nil _⟩ 1 7 3 5).1
  have hfalse : ((init CacheParams.twoShards Unit 1 0).cache.set 1 7 none 3).1 = false := rfl
  rw [hfalse] at hset
  cases hset

end System
end MiniRedis
