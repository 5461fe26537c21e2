import MiniRedis.Cache.ShardedCache
import MiniRedis.Lib.Transition

/-!
# The cache refines the abstract LRU/TTL cache

The simulation relation `Sim` is `ShardedCache.Rep` together with equality of the four tallies.
Each public operation preserves it and returns what the abstract operation returns, so by the
simulation rule a sequence of calls cannot tell the two caches apart: not by a result, not by a
counter, and not by looking into the shards.
-/
namespace MiniRedis
variable {Key Value : Type}

/-- The counters the abstract cache has as well. -/
def Counters.tally (c : Counters) : Tally := ⟨c.hits, c.misses, c.evictions, c.expirations⟩

namespace Counters
variable (c : Counters) (n : ℕ)

@[simp] theorem tally_zero : Counters.zero.tally = Tally.zero := rfl
@[simp] theorem tally_hit : c.hit.tally = c.tally.hit := rfl
@[simp] theorem tally_miss : c.miss.tally = c.tally.miss := rfl
@[simp] theorem tally_evicted : c.evicted.tally = c.tally.evicted := rfl
@[simp] theorem tally_expired : c.expired.tally = c.tally.expired 1 := rfl
@[simp] theorem tally_addMemory : (c.addMemory n).tally = c.tally := rfl
@[simp] theorem tally_subMemory : (c.subMemory n).tally = c.tally := rfl

end Counters

variable [DecidableEq Key] {P : CacheParams Key Value}

namespace ShardedCache

/-- Called alone, `get` is its exclusive section: the shared one decides nothing on its own. -/
theorem get_eq_withLock (k : Key) (now : TimePoint) (c : ShardedCache P) :
    c.get k now = c.withLock (shardForKey P k) (Locked.getExclusiveLocked k now) := by
  cases hk : (c.shards (shardForKey P k)).map.lookup k with
  | none =>
      have hshared : Locked.getSharedLocked k (c.locked (shardForKey P k)) = _ :=
        Locked.getSharedLocked_of_none hk
      have hexclusive : Locked.getExclusiveLocked k now (c.locked (shardForKey P k)) = _ :=
        Locked.getExclusiveLocked_of_none hk
      rw [get, withLock_eq hshared, withLock_eq hexclusive]
      rfl
  | some e =>
      have hshared : c.withLock (shardForKey P k) (Locked.getSharedLocked k) = (true, c) :=
        withLock_of_eq (Locked.getSharedLocked_of_some hk)
      simp [get, hshared]

end ShardedCache

/-! ## One operation -/

/-- The cache represents the abstract one. -/
structure Sim (c : ShardedCache P) (a : LruCache (Fin P.numShards) Key Value) : Prop where
  rep : c.Rep a.lists
  tally : c.counters.tally = a.tally

namespace Locked
variable {s : Locked Key Value} {xs : RecencyList Key (Record Value)}

/-- `set_impl` counts an eviction exactly when the new record does not fit. -/
theorem tally_setImpl (H : s.shard.Holds P xs) (hcard : xs.card ≤ s.shard.capacity) (k : Key)
    (v : Value) (ttl : Option Millis) (now : TimePoint) (hpos : 0 < s.shard.capacity) :
    (s.setImpl P k v ttl now).2.counters.tally =
      if s.shard.capacity < (xs.insert k (storedRecord v ttl now)).card
        then s.counters.tally.evicted else s.counters.tally := by
  rcases setImpl_cases H hcard k v ttl now with ⟨hcap, -⟩ | ⟨-, e, he, heq⟩ | ⟨hk, hroom, heq⟩ |
    ⟨hk, -, hfull, z, f, -, -, -, heq⟩
  · omega
  · rw [heq, AList.card_insert_of_lookup (H.lookup_some he), if_neg (by omega)]
    rfl
  · rw [heq, AList.card_insert_of_lookup_none (H.lookup_none hk), if_neg (by omega)]
    rfl
  · rw [heq, AList.card_insert_of_lookup_none (H.lookup_none hk), if_pos (by omega)]
    rfl

theorem capacity_setImpl (H : s.shard.Holds P xs) (hcard : xs.card ≤ s.shard.capacity) (k : Key)
    (v : Value) (ttl : Option Millis) (now : TimePoint) :
    (s.setImpl P k v ttl now).2.shard.capacity = s.shard.capacity := by
  rcases setImpl_cases H hcard k v ttl now with ⟨-, heq⟩ | ⟨-, e, -, heq⟩ | ⟨-, -, heq⟩ |
    ⟨-, -, -, z, f, -, -, -, heq⟩ <;> rw [heq] <;> rfl

end Locked

namespace Locked
variable {s : Locked Key Value} {xs : RecencyList Key (Record Value)}

/-- One shard's clean-up: the expired records go and are counted. -/
theorem cleanup_spec (now : TimePoint) (H : s.shard.Holds P xs) :
    ((s.cleanupLocked now).shard.capacity = s.shard.capacity ∧
      (s.cleanupLocked now).counters.tally =
        s.counters.tally.expired (xs.card - (liveRecords now xs).card)) ∧
    (s.cleanupLocked now).shard.Holds P (liveRecords now xs) := by
  let I (t : Locked Key Value) : Prop :=
    t.shard.capacity = s.shard.capacity ∧
      ∃ n, t.counters.tally = s.counters.tally.expired n ∧
        t.shard.map.card + n = s.shard.map.card
  have hI : ∀ t ys k e, t.shard.Holds P ys → t.shard.map.lookup k = some e →
      isExpired e now = true → I t → I (t.expireLocked k e) := by
    rintro t ys k e - he - ⟨hcap, n, htally, hn⟩
    refine ⟨hcap, n + 1, ?_, ?_⟩
    · rw [counters_expire, Counters.tally_expired, Counters.tally_subMemory, htally]
      rfl
    · have hcard := AList.card_erase he
      simp only [shard_expire, map_erase]
      omega
  obtain ⟨⟨hcap, n, htally, hn⟩, Hlive⟩ :=
    holds_cleanup now I hI H ⟨rfl, 0, rfl, rfl⟩
  rw [H.card_eq, Hlive.card_eq] at hn
  have hcount : xs.card - (liveRecords now xs).card = n := by omega
  exact ⟨⟨hcap, by rw [htally, hcount]⟩, Hlive⟩

end Locked

namespace Sim
variable {c : ShardedCache P} {a : LruCache (Fin P.numShards) Key Value}

/-- The capacities the abstract cache is compared with. -/
abbrev cap (c : ShardedCache P) : Fin P.numShards → ℕ := capacityOf P c.maxKeys

theorem set (h : Sim c a) (k : Key) (v : Value) (ttl : Option Millis) (now : TimePoint) :
    (c.set k v ttl now).1 = (a.set (shardForKey P) (cap c) k v ttl now).1 ∧
      Sim (c.set k v ttl now).2 (a.set (shardForKey P) (cap c) k v ttl now).2 := by
  let i := shardForKey P k
  have hcap : (c.locked i).shard.capacity = cap c i := h.rep.capacity i
  by_cases hzero : cap c i = 0
  · have hs : c.set k v ttl now = (false, c) :=
      ShardedCache.withLock_of_eq (by simp only [Locked.setImpl, hcap, i, hzero, if_true])
    simp only [hs, LruCache.set, i, hzero, if_true]
    exact ⟨trivial, h⟩
  · have hpos : 0 < (c.locked i).shard.capacity := by omega
    obtain ⟨hok, H⟩ := Locked.holds_setImpl (h.rep.holds i) (h.rep.card_le i) k v ttl now hpos
    have htally := Locked.tally_setImpl (h.rep.holds i) (h.rep.card_le i) k v ttl now hpos
    have hcapEq := Locked.capacity_setImpl (h.rep.holds i) (h.rep.card_le i) k v ttl now
    have hfst : (c.set k v ttl now).1 = true := hok
    simp only [LruCache.set, i, hzero, if_false]
    refine ⟨hfst, ?_, ?_⟩
    · rw [hcap] at H
      exact h.rep.unlock H hcapEq ((h.rep.fits i).put rfl _)
    · rw [hcap, ← h.tally] at *
      exact htally

theorem get (h : Sim c a) (k : Key) (now : TimePoint) :
    (c.get k now).1 = (a.get (shardForKey P) k now).1 ∧
      Sim (c.get k now).2 (a.get (shardForKey P) k now).2 := by
  rw [ShardedCache.get_eq_withLock]
  let i := shardForKey P k
  have H := h.rep.holds i
  cases hk : (c.shards i).map.lookup k with
  | none =>
      have hx := H.lookup_none hk
      have hf : Locked.getExclusiveLocked k now (c.locked i)
          = (none, (c.locked i).count Counters.miss) := Locked.getExclusiveLocked_of_none hk
      simp only [LruCache.get, i, hx]
      refine ⟨by rw [ShardedCache.fst_withLock, hf], ?_, ?_⟩
      · have R := h.rep.unlock (s := (c.locked i).count Counters.miss) H rfl (h.rep.fits i)
        rw [Function.update_eq_self] at R
        rwa [ShardedCache.snd_withLock, hf]
      · rw [ShardedCache.snd_withLock, hf, ← h.tally]
        rfl
  | some e =>
      have hx := H.lookup_some hk
      by_cases hexp : isExpired e now = true
      · have hf : Locked.getExclusiveLocked k now (c.locked i)
            = (none, ((c.locked i).expireLocked k e).count Counters.miss) :=
          Locked.getExclusiveLocked_of_expired hk hexp
        simp only [LruCache.get, i, hx, expired_record, hexp, if_true]
        refine ⟨by rw [ShardedCache.fst_withLock, hf], ?_, ?_⟩
        · rw [ShardedCache.snd_withLock, hf]
          exact h.rep.unlock (Locked.holds_expire H hk) rfl ((h.rep.fits i).erase k)
        · rw [ShardedCache.snd_withLock, hf, ← h.tally]
          rfl
      · have hf : Locked.getExclusiveLocked k now (c.locked i)
            = (some e.value, ((c.locked i).touchLruLocked k e).count Counters.hit) :=
          Locked.getExclusiveLocked_of_live hk (Bool.eq_false_iff.mpr hexp)
        simp only [LruCache.get, i, hx, expired_record, hexp, Bool.false_eq_true, if_false]
        refine ⟨by rw [ShardedCache.fst_withLock, hf]; rfl, ?_, ?_⟩
        · rw [ShardedCache.snd_withLock, hf]
          exact h.rep.unlock (Locked.holds_touch H hk) rfl ((h.rep.fits i).touch k)
        · rw [ShardedCache.snd_withLock, hf, ← h.tally]
          rfl

theorem del (h : Sim c a) (k : Key) :
    (c.del k).1 = (a.del (shardForKey P) k).1 ∧ Sim (c.del k).2 (a.del (shardForKey P) k).2 := by
  let i := shardForKey P k
  have H := h.rep.holds i
  cases hk : (c.shards i).map.lookup k with
  | none =>
      have hs : c.del k = (false, c) :=
        ShardedCache.withLock_of_eq (Locked.delLocked_of_none hk)
      simp only [hs, LruCache.del, i, H.lookup_none hk]
      exact ⟨trivial, h⟩
  | some e =>
      have hx := H.lookup_some hk
      have hf : Locked.delLocked k (c.locked i) = (true, (c.locked i).eraseEntryLocked k e) :=
        Locked.delLocked_of_some hk
      simp only [LruCache.del, i, hx]
      refine ⟨congrArg Prod.fst hf, ?_, ?_⟩
      · rw [ShardedCache.del, ShardedCache.snd_withLock, hf]
        exact h.rep.unlock (Locked.holds_erase H hk) rfl ((h.rep.fits i).erase k)
      · rw [ShardedCache.del, ShardedCache.snd_withLock, hf, ← h.tally]
        rfl

theorem cleanupShard (h : Sim c a) (now : TimePoint) (i : Fin P.numShards) :
    Sim (c.cleanupShard now i)
      { lists := Function.update a.lists i (liveRecords now (a.lists i))
        tally := a.tally.expired ((a.lists i).card - (liveRecords now (a.lists i)).card) } := by
  obtain ⟨⟨hcap, htally⟩, H⟩ := Locked.cleanup_spec now (h.rep.holds i) (s := c.locked i)
  exact ⟨h.rep.unlock H hcap ((h.rep.fits i).live now), htally.trans (by rw [← h.tally]; rfl)⟩

/-- The clean-up of some of the shards, each once. -/
theorem cleanupShards (now : TimePoint) : ∀ (l : List (Fin P.numShards)) (c : ShardedCache P)
    (a : LruCache (Fin P.numShards) Key Value), l.Nodup → Sim c a →
    Sim (l.foldl (fun c i => c.cleanupShard now i) c)
      { lists := fun i => if i ∈ l then liveRecords now (a.lists i) else a.lists i
        tally := a.tally.expired
          (l.map fun i => (a.lists i).card - (liveRecords now (a.lists i)).card).sum } := by
  intro l
  induction l with
  | nil =>
      intro c a _ h
      simpa using h
  | cons i l ih =>
      intro c a hnodup h
      obtain ⟨hi, hnodup⟩ := List.nodup_cons.mp hnodup
      let b := Function.update a.lists i (liveRecords now (a.lists i))
      have hlists : (fun j => if j ∈ i :: l then liveRecords now (a.lists j) else a.lists j) =
          fun j => if j ∈ l then liveRecords now (b j) else b j := by
        funext j
        by_cases hj : j = i
        · subst hj
          simp [b, hi]
        · simp [b, hj]
      have hother : ∀ j ∈ l, (a.lists j).card - (liveRecords now (a.lists j)).card =
          (b j).card - (liveRecords now (b j)).card := by
        intro j hj
        have hne : j ≠ i := fun heq => hi (heq ▸ hj)
        simp only [b, Function.update_of_ne hne]
      rw [hlists, List.map_cons, List.sum_cons, ← Tally.expired_expired,
        List.map_congr_left hother]
      exact ih _ _ hnodup (h.cleanupShard now i)

theorem cleanupExpired (h : Sim c a) (now : TimePoint) :
    Sim (c.cleanupExpired now) (a.cleanupExpired now) := by
  have hall := cleanupShards now _ c a (List.nodup_finRange P.numShards) h
  simpa [ShardedCache.cleanupExpired, LruCache.cleanupExpired, Fin.sum_univ_def] using hall

end Sim

/-! ## Every sequence of calls -/

/-- A call of the cache. -/
inductive CacheOp (Key Value : Type)
  | set (key : Key) (value : Value) (ttl : Option Millis)
  | get (key : Key)
  | del (key : Key)
  | cleanupExpired

inductive CacheResult (Value : Type)
  | flag (ok : Bool)
  | found (value : Option Value)
  | done
  deriving DecidableEq, Repr

/-- What can be seen when a call has returned: its result, the counters, and for each shard its
records from the most to the least recently used. -/
structure Observation (P : CacheParams Key Value) where
  result : CacheResult Value
  tally : Tally
  contents : Fin P.numShards → List (Sigma fun _ : Key => Record Value)

/-- The records a shard holds, read along its linked list. -/
def Shard.view (sh : Shard Key Value) : List (Sigma fun _ : Key => Record Value) :=
  sh.lru.toList.filterMap fun k => (sh.map.lookup k).map fun e => ⟨k, e.record⟩

theorem Shard.Holds.view_eq {sh : Shard Key Value} {xs : RecencyList Key (Record Value)}
    (H : sh.Holds P xs) : sh.view = xs.entries := by
  rw [Shard.view, H.order, ← AList.filterMap_lookup_keys xs]
  congr 1
  funext k
  rw [← H.records k, Option.map_map]
  rfl

namespace ShardedCache

/-- A call at a clock reading. -/
def call (c : ShardedCache P) (now : TimePoint) : CacheOp Key Value →
    CacheResult Value × ShardedCache P
  | .set k v ttl => ((.flag (c.set k v ttl now).1), (c.set k v ttl now).2)
  | .get k => (.found (c.get k now).1, (c.get k now).2)
  | .del k => (.flag (c.del k).1, (c.del k).2)
  | .cleanupExpired => (.done, c.cleanupExpired now)

/-- A call and what can be seen after it. -/
def observe (op : TimePoint × CacheOp Key Value) (c : ShardedCache P) :
    Observation P × ShardedCache P :=
  let r := c.call op.1 op.2
  (⟨r.1, r.2.counters.tally, fun i => (r.2.shards i).view⟩, r.2)

end ShardedCache

namespace LruCache

/-- A call of the abstract cache whose shards hold `cap`. -/
def call (cap : Fin P.numShards → ℕ) (a : LruCache (Fin P.numShards) Key Value)
    (now : TimePoint) : CacheOp Key Value →
    CacheResult Value × LruCache (Fin P.numShards) Key Value
  | .set k v ttl =>
      (.flag (a.set (shardForKey P) cap k v ttl now).1, (a.set (shardForKey P) cap k v ttl now).2)
  | .get k => (.found (a.get (shardForKey P) k now).1, (a.get (shardForKey P) k now).2)
  | .del k => (.flag (a.del (shardForKey P) k).1, (a.del (shardForKey P) k).2)
  | .cleanupExpired => (.done, a.cleanupExpired now)

def observe (cap : Fin P.numShards → ℕ) (op : TimePoint × CacheOp Key Value)
    (a : LruCache (Fin P.numShards) Key Value) :
    Observation P × LruCache (Fin P.numShards) Key Value :=
  let r := a.call cap op.1 op.2
  (⟨r.1, r.2.tally, fun i => (r.2.lists i).entries⟩, r.2)

end LruCache

theorem Sim.call {c : ShardedCache P} {a : LruCache (Fin P.numShards) Key Value} (h : Sim c a)
    (now : TimePoint) (op : CacheOp Key Value) :
    (c.call now op).1 = (a.call (capacityOf P c.maxKeys) now op).1 ∧
      Sim (c.call now op).2 (a.call (capacityOf P c.maxKeys) now op).2 := by
  cases op with
  | set k v ttl => exact ⟨congrArg _ (h.set k v ttl now).1, (h.set k v ttl now).2⟩
  | get k => exact ⟨congrArg _ (h.get k now).1, (h.get k now).2⟩
  | del k => exact ⟨congrArg _ (h.del k).1, (h.del k).2⟩
  | cleanupExpired => exact ⟨rfl, h.cleanupExpired now⟩

namespace ShardedCache

theorem maxKeys_cleanupExpired (now : TimePoint) (c : ShardedCache P) :
    (c.cleanupExpired now).maxKeys = c.maxKeys := by
  unfold cleanupExpired
  generalize List.finRange P.numShards = l
  induction l generalizing c with
  | nil => rfl
  | cons i l ih => exact ih (c.cleanupShard now i)

theorem maxKeys_call (now : TimePoint) (op : CacheOp Key Value) (c : ShardedCache P) :
    (c.call now op).2.maxKeys = c.maxKeys := by
  cases op with
  | set k v ttl => rfl
  | get k => exact congrArg (fun r => r.2.maxKeys) (get_eq_withLock k now c)
  | del k => rfl
  | cleanupExpired => exact maxKeys_cleanupExpired now c

/-- **The cache is an LRU cache with deadlines.** Whatever the number of shards, the hash, the
capacity and the calls with their clock readings, after every call the result, the counters and the
contents of each shard in order of use are those of the abstract cache. -/
theorem observations_eq_lru (P : CacheParams Key Value) (maxKeys : ℕ)
    (ops : List (TimePoint × CacheOp Key Value)) :
    Transition.outputs observe ops (construct P maxKeys) =
      Transition.outputs (LruCache.observe (capacityOf P maxKeys)) ops LruCache.empty := by
  let Related (c : ShardedCache P) (a : LruCache (Fin P.numShards) Key Value) : Prop :=
    Sim c a ∧ c.maxKeys = maxKeys
  have hinit : Related (construct P maxKeys) LruCache.empty := ⟨⟨Rep.construct maxKeys, rfl⟩, rfl⟩
  refine (Transition.outputs_eq_of_simulation (S := Related) ?_ ops hinit).1
  rintro ⟨now, op⟩ c a ⟨h, rfl⟩
  obtain ⟨hresult, hsim⟩ := h.call now op
  refine ⟨?_, hsim, maxKeys_call now op c⟩
  simp only [observe, LruCache.observe, hresult, hsim.tally, (hsim.rep.holds _).view_eq]

end ShardedCache
end MiniRedis
