import MiniRedis.Concurrency.Invariants
import Mathlib.Algebra.BigOperators.ModEq

/-!
# A `set` that throws

Copying a key or a value and allocating a node may throw. `setImplThrowing` is `set_impl` with a
point at which it does, and what it has done by then. An exception thrown after the first effect
leaves that effect behind: the node of a key that was never inserted, or a counter from which the
size of an entry was taken that is still there.

A container operation that throws is assumed to have no effect of its own, as the standard library
guarantees for the lists and maps used here; the same is assumed of the assignment of a value.
-/
namespace MiniRedis
variable {Key Value Exn : Type}

/-- Where `set_impl` may throw. -/
inductive ThrowPoint
  /-- `shard.lru.push_front(key)` -/
  | pushFront
  /-- `it->second.value = std::forward<V>(value)` -/
  | assignValue
  /-- `entry.value = std::forward<V>(value)` -/
  | copyValue
  /-- `shard.map.emplace(key, std::move(entry))` -/
  | emplace
  deriving DecidableEq, Repr

/-- The sum of the sizes recorded in a shard's entries. -/
def Shard.recordedBytes (sh : Shard Key Value) : ℕ := sh.map.total fun _ e => e.bytes

variable [DecidableEq Key] {P : CacheParams Key Value}

namespace Locked
variable (P)

/-- `set_impl`, thrown out of at a point if the call comes there. The error is what it leaves. -/
def setImplThrowing (throws : Option ThrowPoint) (key : Key) (value : Value) (ttl : Option Millis)
    (now : TimePoint) (s : Locked Key Value) :
    Except (Locked Key Value) (Bool × Locked Key Value) :=
  if s.shard.capacity = 0 then .ok (false, s)
  else
    match s.shard.map.lookup key with
    | some e =>
        if throws = some .assignValue then .error (s.count (Counters.subMemory e.bytes))
        else .ok (true, (s.overwriteLocked P key value ttl now e).evictIfNeededLocked)
    | none =>
        if throws = some .pushFront then .error s
        else if throws = some .copyValue ∨ throws = some .emplace then
          .error { s with shard := { s.shard with lru := s.shard.lru.pushFront key } }
        else .ok (true, (s.insertLocked P key value ttl now).evictIfNeededLocked)

variable {P} {s l : Locked Key Value} {point : ThrowPoint} {key : Key} {value : Value}
  {ttl : Option Millis} {now : TimePoint}

/-- **What an exception leaves.** -/
theorem setImplThrowing_cases
    (h : s.setImplThrowing P (some point) key value ttl now = .error l) :
    (point = .pushFront ∧ l = s) ∨
    (∃ e, point = .assignValue ∧ s.shard.map.lookup key = some e ∧
      l = s.count (Counters.subMemory e.bytes)) ∨
    ((point = .copyValue ∨ point = .emplace) ∧ s.shard.map.lookup key = none ∧
      l = { s with shard := { s.shard with lru := s.shard.lru.pushFront key } }) := by
  unfold setImplThrowing at h
  split at h
  · cases h
  · cases hk : s.shard.map.lookup key with
    | some e =>
        rw [hk] at h
        dsimp only at h
        split at h
        · next hpoint => exact .inr (.inl ⟨e, Option.some.inj hpoint, rfl, (Except.error.inj h).symm⟩)
        · cases h
    | none =>
        rw [hk] at h
        dsimp only at h
        split at h
        · next hpoint => exact .inl ⟨Option.some.inj hpoint, (Except.error.inj h).symm⟩
        · split at h
          · next hpoint =>
            simp only [Option.some.injEq] at hpoint
            exact .inr (.inr ⟨hpoint, rfl, (Except.error.inj h).symm⟩)
          · cases h

end Locked

namespace ShardedCache

/-- A `set` that may throw. The lock is released either way. -/
def setThrowing (throws : Option ThrowPoint) (key : Key) (value : Value) (ttl : Option Millis)
    (now : TimePoint) (c : ShardedCache P) : Except (ShardedCache P) (Bool × ShardedCache P) :=
  match (c.locked (shardForKey P key)).setImplThrowing P throws key value ttl now with
  | .ok r => .ok (r.1, c.unlock (shardForKey P key) r.2)
  | .error l => .error (c.unlock (shardForKey P key) l)

omit [DecidableEq Key] in
/-- The list of each shard holds the keys of its map, once each, and the memory counter reads the
sum of the recorded sizes. -/
structure Consistent (c : ShardedCache P) : Prop where
  keys : ∀ i, (c.shards i).lru.toList.Perm (c.shards i).map.keys
  memory : c.counters.memoryBytes.Reads (∑ i, (c.shards i).recordedBytes)

end ShardedCache

/-! ## What an exception does -/

/-- Recorded sizes are sizes, up to the width of the counter. -/
theorem Shard.Holds.recordedBytes_modEq {sh : Shard Key Value}
    {xs : RecencyList Key (Record Value)} (H : sh.Holds P xs) :
    sh.recordedBytes ≡ sh.bytes P [MOD WordCounter.modulus] := by
  refine Nat.ModEq.listSum_map ?_
  intro x hx
  dsimp only
  rw [H.bytes x.1 x.2 (AList.mem_lookup_iff.mpr hx), P.estimateEntryBytes_eq]
  exact Nat.mod_modEq _ _

namespace System
variable {maxKeys : ℕ} {s : System P Exn}

theorem Reachable.consistent (h : s.Reachable maxKeys) : s.cache.Consistent := by
  obtain ⟨xs, R⟩ := h.wellFormed.rep
  refine ⟨fun i => ?_, ?_⟩
  · have hkeys : ((s.cache.shards i).map.mapValues Entry.record).keys = (s.cache.shards i).map.keys := by
      simp [AList.keys, AList.mapValues, List.keys]
    rw [(R.holds i).order, ← hkeys]
    exact ((R.holds i).records_perm.map Sigma.fst).symm
  · have hsum : ∑ i, (s.cache.shards i).recordedBytes ≡ s.storedBytes [MOD WordCounter.modulus] :=
      Nat.ModEq.sum fun i _ => (R.holds i).recordedBytes_modEq
    exact h.memoryExact.trans hsum.symm

/-- **A `set` that throws leaves the cache as it should be** if and only if it throws before its
first effect, or what it has already subtracted is nothing. -/
theorem consistent_setThrowing_iff (h : s.Reachable maxKeys) {point : ThrowPoint} {key : Key}
    {value : Value} {ttl : Option Millis} {now : TimePoint} {c : ShardedCache P}
    (hthrow : s.cache.setThrowing (some point) key value ttl now = .error c) :
    (c.Consistent ∧ ∀ i, (c.shards i).map = (s.cache.shards i).map) ↔
      point = .pushFront ∨ (point = .assignValue ∧ ∀ e, s.entry key = some e → e.bytes = 0) := by
  have C := h.consistent
  obtain ⟨xs, R⟩ := h.wellFormed.rep
  obtain ⟨l, hl, rfl⟩ : ∃ l, (s.held key).setImplThrowing P (some point) key value ttl now = .error l ∧
      c = s.cache.unlock (shardForKey P key) l := by
    unfold ShardedCache.setThrowing at hthrow
    split at hthrow
    · cases hthrow
    · next l hl => exact ⟨l, hl, (Except.error.inj hthrow).symm⟩
  rcases Locked.setImplThrowing_cases hl with ⟨rfl, rfl⟩ | ⟨e, rfl, he, rfl⟩ | ⟨hpoint, hk, rfl⟩
  · have hsame : s.cache.unlock (shardForKey P key) (s.held key) = s.cache :=
      ShardedCache.unlock_locked _ _
    rw [hsame]
    exact iff_of_true ⟨C, fun _ => rfl⟩ (.inl rfl)
  · -- the entry is still there, but its size has been subtracted
    let c := s.cache.unlock (shardForKey P key) ((s.held key).count (Counters.subMemory e.bytes))
    have hshards : c.shards = s.cache.shards :=
      (ShardedCache.shards_unlock _ _ _).trans (Function.update_eq_self _ _)
    have hsize : e.bytes < WordCounter.modulus := by
      rw [(R.holds _).bytes key e he]
      exact Nat.mod_lt _ (by decide)
    have hreads := WordCounter.reads_fetchSub_iff C.memory hsize
    have hmemory : c.Consistent ↔ e.bytes = 0 := by
      rw [← hreads]
      constructor
      · intro hc
        have := hc.memory
        rwa [hshards] at this
      · intro hr
        exact ⟨by rw [hshards]; exact C.keys, by rw [hshards]; exact hr⟩
    constructor
    · rintro ⟨hc, -⟩
      refine .inr ⟨rfl, ?_⟩
      intro f hf
      cases he.symm.trans hf
      exact hmemory.mp hc
    · rintro (hpoint | ⟨-, hzero⟩)
      · cases hpoint
      · exact ⟨hmemory.mpr (hzero e he), fun i => by rw [hshards]⟩
  · -- the key has a node and no entry
    refine iff_of_false ?_ ?_
    · rintro ⟨hc, -⟩
      have hkeys := hc.keys (shardForKey P key)
      simp only [ShardedCache.shards_unlock, Function.update_self] at hkeys
      have hmem : key ∈ (s.cache.shards (shardForKey P key)).map.keys :=
        hkeys.mem_iff.mp List.mem_cons_self
      exact AList.lookup_eq_none.mp hk hmem
    · rintro (rfl | ⟨rfl, -⟩) <;> rcases hpoint with hpoint | hpoint <;> cases hpoint

/-- A node that cannot be allocated costs nothing, also where its shard is full. -/
theorem consistent_setThrowing_iff_pushFront :
    ∃ (s : System CacheParams.twoShards Unit) (c : ShardedCache CacheParams.twoShards),
      s.Reachable 4 ∧ s.entry 1 ≠ none ∧ s.entry 3 ≠ none ∧ s.entry 2 ≠ none ∧
        s.cache.setThrowing (some .pushFront) 5 9 none 0 = .error c ∧ c.Consistent ∧
          ∀ i, (c.shards i).map = (s.cache.shards i).map := by
  let acts : List (Action ℕ ℕ Unit) :=
    [.call 0 (.set 1 5 none), .run 0, .call 1 (.set 2 6 (some 1)), .run 1, .call 2 (.set 3 7 none),
      .run 2]
  let s := (Transition.exec step acts (init CacheParams.twoShards Unit 4 0)).get (by decide)
  have hs : s.Reachable 4 := reachable_of_exec (Option.some_get _).symm
  have hone : s.entry 1 ≠ none := Option.isSome_iff_ne_none.mp (by decide)
  have hthree : s.entry 3 ≠ none := Option.isSome_iff_ne_none.mp (by decide)
  have htwo : s.entry 2 ≠ none := Option.isSome_iff_ne_none.mp (by decide)
  have hthrow : s.cache.setThrowing (some .pushFront) 5 9 none 0 =
      .error (s.cache.unlock (shardForKey CacheParams.twoShards 5) (s.held 5)) := rfl
  exact ⟨s, _, hs, hone, hthree, htwo, hthrow,
    (consistent_setThrowing_iff hs hthrow).mpr (.inl rfl)⟩

/-- An overwrite whose value cannot be copied: the entry of 64 bytes is still there, and the counter
reads zero. -/
theorem overwrite_throws_size_lost :
    ¬ ∀ (maxKeys : ℕ) (s : System CacheParams.twoShards Unit), s.Reachable maxKeys →
      ∀ point key value ttl now c,
        s.cache.setThrowing (some point) key value ttl now = .error c →
          c.Consistent ∧ ∀ i, (c.shards i).map = (s.cache.shards i).map := by
  intro h
  let acts : List (Action ℕ ℕ Unit) := [.call 0 (.set 1 5 none), .run 0]
  let s := (Transition.exec step acts (init CacheParams.twoShards Unit 3 0)).get (by decide)
  have hs : s.Reachable 3 := reachable_of_exec (Option.some_get _).symm
  let c := s.cache.unlock (shardForKey CacheParams.twoShards 1)
    ((s.held 1).count (Counters.subMemory 64))
  have hthrow : s.cache.setThrowing (some .assignValue) 1 6 none 0 = .error c := rfl
  have hmemory := (h 3 s hs .assignValue 1 6 none 0 c hthrow).1.memory
  have hsum : ∑ i, (c.shards i).recordedBytes = 64 := by decide
  rw [hsum] at hmemory
  exact absurd hmemory (by unfold WordCounter.Reads; decide)

end System
end MiniRedis
