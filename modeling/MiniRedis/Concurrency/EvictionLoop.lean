import MiniRedis.Concurrency.Invariants
import MiniRedis.Lib.WhileLoop

/-!
# The eviction loop is safe

`evict_if_needed_locked` is written for a list and a map that might disagree: it pops a node whose
key is not in the map, and calls `back()` without looking whether there is a node. In no reachable
state do they disagree. `Shard.Linked` says in what way they agree. The loop then runs with an
invariant of its own, `EvictionInvariant`: the list and the map agree, and the key that `set_impl`
has just written is at the front.
-/
namespace MiniRedis
variable {Key Value Exn : Type} [DecidableEq Key]

/-- The list has each key of the map once and nothing else, and each entry's iterator designates the
node with the entry's own key. -/
structure Shard.Linked (sh : Shard Key Value) : Prop where
  once : sh.lru.toList.Nodup
  same : ∀ k, k ∈ sh.lru.toList ↔ k ∈ sh.map
  designates : ∀ k e, sh.map.lookup k = some e → (e.lruPos, k) ∈ sh.lru.nodes

variable {P : CacheParams Key Value} {maxKeys : ℕ}

theorem Shard.Holds.linked {sh : Shard Key Value} {xs : RecencyList Key (Record Value)}
    (H : sh.Holds P xs) : sh.Linked where
  once := H.nodup
  same := fun k => by
    rw [H.order, ← H.mem_keys]
    exact Iff.rfl
  designates := H.pos

namespace Locked

/-- `set_impl` up to its call of `evict_if_needed_locked`. -/
def writeLocked (P : CacheParams Key Value) (key : Key) (value : Value) (ttl : Option Millis)
    (now : TimePoint) (s : Locked Key Value) : Locked Key Value :=
  match s.shard.map.lookup key with
  | some e => s.overwriteLocked P key value ttl now e
  | none => s.insertLocked P key value ttl now

theorem setImpl_eq_writeLocked {s : Locked Key Value} (h : s.shard.capacity ≠ 0) (k : Key)
    (v : Value) (ttl : Option Millis) (now : TimePoint) :
    s.setImpl P k v ttl now = (true, (s.writeLocked P k v ttl now).evictIfNeededLocked) := by
  rw [setImpl, if_neg h]
  rfl

/-- `map.size() > capacity` -/
def OverCapacity (s : Locked Key Value) : Prop := s.shard.capacity < s.shard.map.card

instance : @DecidablePred (Locked Key Value) OverCapacity :=
  fun s => inferInstanceAs (Decidable (s.shard.capacity < s.shard.map.card))

theorem evictLoop_eq_fuelled (fuel : ℕ) (s : Locked Key Value) :
    evictLoop fuel s = WhileLoop.fuelled OverCapacity evictBody fuel s := by
  induction fuel generalizing s with
  | zero => rfl
  | succ fuel ih =>
      by_cases hover : s.OverCapacity
      · have hlt : s.shard.capacity < s.shard.map.card := hover
        simp only [evictLoop, WhileLoop.fuelled, hlt, hover, if_true]
        cases s.evictBody with
        | some t => exact ih t
        | none => rfl
      · have hlt : ¬ s.shard.capacity < s.shard.map.card := hover
        simp only [evictLoop, WhileLoop.fuelled, hlt, hover, if_false]

/-- What holds whenever the eviction loop, called for `key`, tests its condition. -/
structure EvictionInvariant (P : CacheParams Key Value) (key : Key) (s : Locked Key Value) :
    Prop where
  capacity : s.shard.capacity ≠ 0
  holds : ∃ xs : RecencyList Key (Record Value), s.shard.Holds P xs ∧ xs.keys.head? = some key

theorem capacity_writeLocked (s : Locked Key Value) (k : Key) (v : Value) (ttl : Option Millis)
    (now : TimePoint) : (s.writeLocked P k v ttl now).shard.capacity = s.shard.capacity := by
  unfold writeLocked
  split <;> rfl

theorem holds_writeLocked {s : Locked Key Value} {xs : RecencyList Key (Record Value)}
    (H : s.shard.Holds P xs) (k : Key) (v : Value) (ttl : Option Millis) (now : TimePoint) :
    (s.writeLocked P k v ttl now).shard.Holds P (xs.insert k (storedRecord v ttl now)) := by
  unfold writeLocked
  split
  · next e he => exact holds_overwrite H he v ttl now
  · next hk => exact holds_insert H hk v ttl now

/-- Writing a key puts it at the front. -/
theorem evictionInvariant_writeLocked {s : Locked Key Value}
    {xs : RecencyList Key (Record Value)} (H : s.shard.Holds P xs) (hcap : s.shard.capacity ≠ 0)
    (k : Key) (v : Value) (ttl : Option Millis) (now : TimePoint) :
    EvictionInvariant P k (s.writeLocked P k v ttl now) where
  capacity := by rwa [capacity_writeLocked]
  holds := by
    refine ⟨_, holds_writeLocked H k v ttl now, ?_⟩
    rw [AList.keys_insert]
    rfl

/-- Where the condition of the loop holds, the last node exists, its key is in the map, it is not
the key just written, and evicting it keeps the invariant. -/
theorem EvictionInvariant.body {key : Key} {s : Locked Key Value}
    (h : EvictionInvariant P key s) (hover : s.OverCapacity) :
    ∃ z e, s.shard.lru.back? = some z ∧ s.shard.map.lookup z = some e ∧ z ≠ key ∧
      s.evictBody = some ((s.eraseEntryLocked z e).count Counters.evicted) ∧
      EvictionInvariant P key ((s.eraseEntryLocked z e).count Counters.evicted) := by
  obtain ⟨xs, H, hfront⟩ := h.holds
  have hcap := h.capacity
  have htwo : 1 < xs.card := by
    have hcard := H.card_eq
    simp only [OverCapacity] at hover
    omega
  obtain ⟨z, e, hz, hback, he⟩ := H.listed.exists_back (Nat.lt_of_succ_lt htwo)
  have hzkey : z ≠ key := RecencyList.oldest?_ne_front hfront hz htwo
  refine ⟨z, e, hback, he, hzkey, evictBody_eq hback he, hcap, xs.erase z, holds_evicted H he, ?_⟩
  obtain ⟨l, hkeys⟩ := List.head?_eq_some_iff.mp hfront
  rw [AList.keys_erase, hkeys, List.erase_cons_tail (by simpa using hzkey.symm)]
  rfl

/-- How far the map is over the capacity. -/
def excess (s : Locked Key Value) : ℕ := s.shard.map.card - s.shard.capacity

/-- A turn of the loop keeps the invariant and brings the excess down. -/
theorem EvictionInvariant.turn {key : Key} (s : Locked Key Value)
    (h : EvictionInvariant P key s) (hover : s.OverCapacity) :
    ∃ t, s.evictBody = some t ∧ EvictionInvariant P key t ∧ t.excess < s.excess := by
  obtain ⟨z, e, -, he, -, hbody, ht⟩ := h.body hover
  refine ⟨_, hbody, ht, ?_⟩
  have hcard := AList.card_erase he
  simp only [OverCapacity] at hover
  simp only [excess, shard_count, map_erase, capacity_erase]
  omega

/-- A write makes the map larger by at most one entry. -/
theorem excess_writeLocked_le {s : Locked Key Value} {xs : RecencyList Key (Record Value)}
    (H : s.shard.Holds P xs) (hcard : xs.card ≤ s.shard.capacity) (k : Key) (v : Value)
    (ttl : Option Millis) (now : TimePoint) : (s.writeLocked P k v ttl now).excess ≤ 1 := by
  have hsize := (holds_writeLocked H k v ttl now).card_eq
  have hle := AList.card_insert_le xs k (storedRecord v ttl now)
  simp only [excess, capacity_writeLocked]
  omega

/-- The loop after a write: it ends in the state that `evict_if_needed_locked` computes, after at
most one turn, and the invariant holds in the state in which a turn begins. -/
theorem evictionLoop_writeLocked {s : Locked Key Value} {xs : RecencyList Key (Record Value)}
    (H : s.shard.Holds P xs) (hcard : xs.card ≤ s.shard.capacity) (hcap : s.shard.capacity ≠ 0)
    (k : Key) (v : Value) (ttl : Option Millis) (now : TimePoint) :
    ∃ ts, WhileLoop OverCapacity evictBody (s.writeLocked P k v ttl now) ts
        (s.writeLocked P k v ttl now).evictIfNeededLocked ∧
      ts.length ≤ 1 ∧ ∀ t ∈ ts, EvictionInvariant P k t ∧ t.OverCapacity := by
  obtain ⟨ts, l, hloop, hlen, hmem, -, -⟩ := WhileLoop.total (EvictionInvariant P k) excess
    EvictionInvariant.turn (evictionInvariant_writeLocked H hcap k v ttl now)
  have hfuel : ts.length ≤ (s.writeLocked P k v ttl now).shard.map.card +
      (s.writeLocked P k v ttl now).shard.lru.toList.length := by
    simp only [excess] at hlen
    omega
  have hl : (s.writeLocked P k v ttl now).evictIfNeededLocked = l := by
    rw [evictIfNeededLocked, evictLoop_eq_fuelled]
    exact hloop.fuelled_eq hfuel
  rw [hl]
  exact ⟨ts, hloop, hlen.trans (excess_writeLocked_le H hcard k v ttl now), hmem⟩

end Locked

namespace System

/-- **The map and the list agree, and eviction is safe.** In every reachable state the list of each
shard has every key of its map once and nothing else, and every entry's iterator designates the node
of its own key. Whatever is stored next, the eviction loop ends after at most one turn. In that turn
the list has a back, the map has an entry for it, and it is not the key just stored. -/
theorem linked_and_eviction_safe {s : System P Exn} (h : s.Reachable maxKeys) :
    (∀ i, (s.cache.shards i).Linked) ∧
    ∀ (k : Key) (v : Value) (ttl : Option Millis) (now : TimePoint),
      (s.held k).shard.capacity ≠ 0 →
      ∃ ts l, WhileLoop Locked.OverCapacity Locked.evictBody
          ((s.held k).writeLocked P k v ttl now) ts l ∧
        s.cache.set k v ttl now = (true, s.cache.unlock (shardForKey P k) l) ∧
        ts.length ≤ 1 ∧
        ∀ t ∈ ts, ∃ z e, t.shard.lru.back? = some z ∧ t.shard.map.lookup z = some e ∧ z ≠ k ∧
          t.evictBody = some ((t.eraseEntryLocked z e).count Counters.evicted) := by
  obtain ⟨xs, R⟩ := h.wellFormed.rep
  refine ⟨fun i => (R.holds i).linked, fun k v ttl now hcap => ?_⟩
  have H : (s.held k).shard.Holds P (xs (shardForKey P k)) := R.holds _
  obtain ⟨ts, hloop, hlen, hmem⟩ :=
    Locked.evictionLoop_writeLocked H (R.card_le _) hcap k v ttl now
  refine ⟨ts, _, hloop, ?_, hlen, fun t ht => ?_⟩
  · exact ShardedCache.withLock_eq (Locked.setImpl_eq_writeLocked hcap k v ttl now)
  · obtain ⟨z, e, hback, he, hne, hbody, -⟩ := (hmem t ht).1.body (hmem t ht).2
    exact ⟨z, e, hback, he, hne, hbody⟩

/-- A client fills a cache for one key and stores another. -/
theorem linked_and_eviction_safe_full :
    ∃ s : System CacheParams.twoShards Unit, s.Reachable 1 ∧
      (s.held 2).shard.lru.toList = [0] ∧
      ∃ ts l, WhileLoop Locked.OverCapacity Locked.evictBody
          ((s.held 2).writeLocked CacheParams.twoShards 2 7 none 0) ts l ∧ ts.length ≤ 1 := by
  let s := (Transition.exec step [.call 0 (.set 0 5 none), .run 0]
    (init CacheParams.twoShards Unit 1 0)).get (by decide)
  have hs : s.Reachable 1 := reachable_of_exec (Option.some_get _).symm
  obtain ⟨ts, l, hloop, -, hlen, -⟩ :=
    (linked_and_eviction_safe hs).2 2 7 none 0 (by decide)
  exact ⟨s, hs, by decide, ts, l, hloop, hlen⟩

end System
end MiniRedis
